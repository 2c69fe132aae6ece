import QueryShape.Proofs.MergedPartition
import QueryShape.Proofs.NestingDepth
import QueryShape.Proofs.ResponseKeys

/-!
# Response shapes are finite

The shape of a response comes from turns: partition a selection set, merge the fields of each
variant, go on with the nested selections of each merged field. These nested selections are made on
the way and need not stand in the document, but with every turn fields are nested less deep. So the
turns come to an end, the depth that is computed for them cuts nothing off, and nothing fails but
the merging of fields that disagree in their types.

## What this module delivers

- `FragmentTable.Turn`: one turn, from a selection set to the nested selections of a merged field.
- `Turn.nestsBelow`: a turn leads to selections that nest fields less deep.
- `FragmentTable.shapeTurn`, `shapeWithin_eq`: the recursion without a depth.
- `OnlyConflicts`: what can fail.
- `Schema.shapes_end`: the turns from any selection set of a compiled document.
-/

set_option autoImplicit false

namespace QueryShape

variable {table : FragmentTable} {schema : Schema} {options : TypeCaseOptions} {depth : Nat}
  {set nested : SelectionSet}

/-! ## What can fail -/

/-- A result that is missing only because merged fields disagree in their types. -/
def OnlyConflicts {α : Type} (result : Except InvariantError α) : Prop :=
  ∀ error, result = .error error → ∃ key first second, error = .mergeConflict key first second

namespace OnlyConflicts

variable {α β : Type}

theorem ok (value : α) : OnlyConflicts (.ok value) :=
  fun _ herror => nomatch herror

theorem bind {step : Except InvariantError α} {next : α → Except InvariantError β}
    (hstep : OnlyConflicts step) (hnext : ∀ value, step = .ok value → OnlyConflicts (next value)) :
    OnlyConflicts (step >>= next) := by
  cases step with
  | error error =>
      intro other hother
      exact hstep other (congrArg Except.error (Except.error.inj hother))
  | ok value => exact hnext value rfl

theorem mapM {step : α → Except InvariantError β} {entries : List α}
    (hstep : ∀ entry ∈ entries, OnlyConflicts (step entry)) :
    OnlyConflicts (entries.mapM step) := by
  induction entries with
  | nil =>
      rw [List.mapM_nil]
      exact ok []
  | cons entry entries ih =>
      obtain ⟨hentry, hentries⟩ := List.forall_mem_cons.mp hstep
      rw [List.mapM_cons]
      exact hentry.bind fun _ _ => (ih hentries).bind fun _ _ => ok _

/-- Fields of known occurrences are merged, or there is a conflict. -/
theorem mergeFields {records : List FieldRecord}
    (hrecords : table.fieldRecords options set = .ok records) :
    OnlyConflicts (table.mergeFields schema options set) := by
  intro error herror
  rcases FragmentTable.mergeFields_cases schema hrecords with
    ⟨fields, hfields, -⟩ | ⟨key, first, second, hconflict⟩
  · exact absurd (hfields.symm.trans herror) (by simp)
  · exact ⟨key, first, second, Except.error.inj (herror.symm.trans hconflict)⟩

end OnlyConflicts

/-- Mapping in two ways that agree on all entries. -/
theorem mapM_congr {α β ε : Type} {f g : α → Except ε β} {entries : List α}
    (h : ∀ entry ∈ entries, f entry = g entry) : entries.mapM f = entries.mapM g := by
  induction entries with
  | nil => rw [List.mapM_nil, List.mapM_nil]
  | cons entry entries ih =>
      obtain ⟨hentry, hentries⟩ := List.forall_mem_cons.mp h
      rw [List.mapM_cons, List.mapM_cons, hentry, ih hentries]

/-! ## Occurrences in selection sets -/

namespace FragmentTable

mutual

/-- The occurrences in a selection are found if those in the fragments that it spreads are. -/
theorem exists_fieldRecords_selection {lookup : Lookup} (selection : Selection)
    (hlookup : ∀ id ∈ selection.spreads, ∀ possible conditions, ∃ records,
      lookup id possible conditions = .ok records) (possible : PossibleTypes)
    (conditions : List Condition) :
    ∃ records, selection.fieldRecords lookup options possible conditions = .ok records := by
  cases selection with
  | field head nested => exact ⟨_, by rw [Selection.fieldRecords]⟩
  | spread head =>
      rw [Selection.fieldRecords]
      split
      · exact hlookup head.fragment (List.mem_singleton_self _) _ _
      · exact ⟨[], rfl⟩
  | inline head set =>
      obtain ⟨parent, narrowed, selections⟩ := set
      rw [Selection.fieldRecords]
      split
      · exact exists_fieldRecords_selections selections hlookup possible _
      · exact ⟨[], rfl⟩

theorem exists_fieldRecords_selections {lookup : Lookup} (selections : List Selection)
    (hlookup : ∀ id ∈ Selection.spreadsIn selections, ∀ possible conditions, ∃ records,
      lookup id possible conditions = .ok records) (possible : PossibleTypes)
    (conditions : List Condition) :
    ∃ records, Selection.fieldRecordsIn lookup options possible conditions selections =
      .ok records := by
  cases selections with
  | nil => exact ⟨[], by rw [Selection.fieldRecordsIn]⟩
  | cons first rest =>
      obtain ⟨here, hhere⟩ := exists_fieldRecords_selection first
        (fun id hid => hlookup id (List.mem_append_left _ hid)) possible conditions
      obtain ⟨others, hothers⟩ := exists_fieldRecords_selections rest
        (fun id hid => hlookup id (List.mem_append_right _ hid)) possible conditions
      refine ⟨here ++ others, ?_⟩
      rw [Selection.fieldRecordsIn, hhere, hothers]
      rfl

end

/-- In an ordered table the occurrences in a fragment are found at every depth above its number. -/
theorem exists_lookupRecords (h : table.Ordered) (id : FragmentId) {depth : Nat}
    (hdepth : id < depth) (hsize : id < table.size) (possible : PossibleTypes)
    (conditions : List Condition) :
    ∃ records, table.lookupRecords options depth id possible conditions = .ok records := by
  induction id using Nat.strongRecOn generalizing depth possible conditions with
  | ind id ih =>
      cases depth with
      | zero => exact absurd hdepth (Nat.not_lt_zero id)
      | succ depth =>
          obtain ⟨fragment, hget⟩ := get?_eq_some_of_lt hsize
          rw [lookupRecords, resolve_eq_ok.mpr hget]
          apply exists_fieldRecords_selections
          intro spread hspread
          have hlt : spread < id := h id fragment hget spread hspread
          exact ih spread hlt (Nat.lt_of_lt_of_le hlt (Nat.le_of_lt_succ hdepth))
            (Nat.lt_trans hlt hsize)

/-- The occurrences in a selection set that resolves are found. -/
theorem exists_fieldRecords_of_resolves (h : table.Ordered) (hset : table.Resolves set) :
    ∃ records, table.fieldRecords options set = .ok records := by
  rw [fieldRecords]
  split
  · exact ⟨[], rfl⟩
  · exact exists_fieldRecords_selections set.selections
      (fun id hid => exists_lookupRecords h id (hset id hid) (hset id hid)) set.possible []

end FragmentTable

/-- The occurrences in the default variant are found like those in the exhaustive variants. -/
theorem TypeCase.Gathers.exists_fieldRecords {possible : PossibleTypes}
    {all : ObjectId → List Occurrence} {typeCase : TypeCase}
    (h : TypeCase.Gathers options possible all typeCase) {variant : Variant}
    (hvariant : variant = typeCase.default ∨ variant ∈ typeCase.exhaustive) :
    ∃ records, table.fieldRecords options variant.toSelectionSet = .ok records := by
  rcases hvariant with rfl | hmem
  · by_cases hinhabited : ∃ type, type ∈ typeCase.default.possible
    · exact ⟨_, Variant.fieldRecords_eq h.settled.default hinhabited table⟩
    · -- Nothing applies to no object type at all.
      have hempty : typeCase.default.possible.isEmpty = true :=
        (Bool.eq_false_or_eq_true _).resolve_right fun hsome =>
          hinhabited (PossibleTypes.isEmpty_eq_false_iff.mp hsome)
      exact ⟨[], by rw [FragmentTable.fieldRecords, if_pos hempty]⟩
  · exact ⟨_, h.fieldRecords_eq hmem table⟩

/-! ## Turns -/

/-- One turn: from a selection set to the nested selections of a field that is merged for one of its
variants. -/
inductive FragmentTable.Turn (table : FragmentTable) (schema : Schema) (options : TypeCaseOptions) :
    SelectionSet → SelectionSet → Prop
  | intro {set nested : SelectionSet} {typeCase : TypeCase} {variant : Variant}
      {fields : List MergedField} {field : MergedField} :
      table.partition options set = .ok typeCase → variant ∈ typeCase.exhaustive →
      table.mergeFields schema options variant.toSelectionSet = .ok fields → field ∈ fields →
      field.nested = some nested → table.Turn schema options set nested

/-- Selections that are handed down nest fields as deep as before. -/
theorem allNestWithin_handed {present : Bool} {record : FieldRecord}
    (h : ∀ inner, record.nested = some inner → table.AllNestWithin depth inner.selections) :
    table.AllNestWithin depth (record.handed present) := by
  rw [FieldRecord.handed]
  cases hnested : record.nested with
  | none => exact fun _ hmem => absurd hmem List.not_mem_nil
  | some inner =>
      have hall := h inner hnested
      cases present with
      | false => exact hall
      | true =>
          simp only [if_true, wrapInConditions]
          split
          · exact hall
          · exact List.forall_mem_singleton.mpr (.inline _ hall)

/-- Joined selections nest fields less deep than the fields under which they stood. -/
theorem exists_allNestWithin_joined {records : List FieldRecord} (hdepth : 0 < depth)
    (h : ∀ record ∈ records, table.NestsBelow depth record.item) :
    ∃ inner, inner < depth ∧ table.AllNestWithin inner (joined records) := by
  refine ⟨depth - 1, Nat.sub_lt hdepth Nat.one_pos, ?_⟩
  intro selection hmem
  obtain ⟨record, hrecord, hselection⟩ := List.mem_flatMap.mp hmem
  refine allNestWithin_handed (fun set hset => ?_) selection hselection
  obtain ⟨inner, hlt, hall⟩ := h record hrecord record.field set (by rw [FieldRecord.item, hset])
  exact hall.mono (Nat.le_sub_one_of_lt hlt)

namespace FragmentTable

/-- A turn leads to selections that nest fields less deep. -/
theorem Turn.nestsBelow (h : table.Ordered) (hset : table.AllNestWithin depth set.selections)
    (hturn : table.Turn schema options set nested) :
    ∃ inner, inner < depth ∧ table.AllNestWithin inner nested.selections := by
  cases hturn with
  | @intro typeCase variant fields field hpartition hmem hfields hfield hnested =>
      obtain ⟨typeCase', hpartition', hpresents⟩ := partition_presents h options hset.resolves
      obtain rfl : typeCase' = typeCase := Except.ok.inj (hpartition'.symm.trans hpartition)
      obtain ⟨-, hstands⟩ := mergeFields_spec (hpresents.fieldRecords_eq hmem table) hfields
      -- What stands in the variant was selected for its object types, so its fields nest less deep.
      obtain ⟨type, htype⟩ := hpresents.wellFormed.inhabited_exhaustive hmem
      obtain ⟨-, habridges⟩ := hpresents.content_of_mem_exhaustive hmem htype
      have hbelow : ∀ record ∈ recordsOf (recordsIn variant.content) field.responseKey,
          table.NestsBelow depth record.item := by
        intro record hrecord
        obtain ⟨occurrence, hoccurrence, hsome⟩ :=
          List.mem_filterMap.mp (List.mem_filter.mp hrecord).1
        obtain ⟨-, hitem⟩ := Occurrence.record?_eq_some.mp hsome
        obtain ⟨selection, hselection, hoccurs⟩ :=
          mem_occurrencesIn_iff.mp (habridges.sublist.subset hoccurrence)
        have hone := (hset selection hselection).nestsBelow h occurrence hoccurs
        rwa [hitem] at hone
      obtain ⟨first, hfirst, -, -, hjoined⟩ := (hstands field hfield).represented
      rw [hnested] at hjoined
      obtain ⟨inner, hinner, rfl⟩ := Option.map_eq_some_iff.mp hjoined.symm
      -- The field that represents the others has nested selections, so there is some depth to lose.
      obtain ⟨below, hlt, -⟩ :=
        hbelow first hfirst first.field inner (by rw [FieldRecord.item, hinner])
      exact exists_allNestWithin_joined (Nat.zero_lt_of_lt hlt) hbelow

/-- The turns from a selection set come to an end. -/
theorem acc_turn (h : table.Ordered) (hset : table.AllNestWithin depth set.selections) :
    Acc (fun nested outer => table.Turn schema options outer nested) set := by
  induction depth using Nat.strongRecOn generalizing set with
  | ind depth ih =>
      refine Acc.intro set fun nested hturn => ?_
      obtain ⟨inner, hlt, hall⟩ := hturn.nestsBelow h hset
      exact ih inner hlt hall

/-- There is a bound wherever turns lead. -/
theorem allNestWithin_of_turns (h : table.Ordered) {reached : SelectionSet}
    (hset : table.AllNestWithin depth set.selections)
    (hreached : Relation.ReflTransGen (table.Turn schema options) set reached) :
    ∃ depth, table.AllNestWithin depth reached.selections := by
  induction hreached with
  | refl => exact ⟨depth, hset⟩
  | tail _ hturn ih =>
      obtain ⟨depth, hall⟩ := ih
      obtain ⟨inner, -, hinner⟩ := hturn.nestsBelow h hall
      exact ⟨inner, hinner⟩

/-! ## The recursion without a depth -/

/-- What a turn makes of the shapes of nested selections. -/
def shapeTurn (table : FragmentTable) (schema : Schema) (options : TypeCaseOptions)
    (below : SelectionSet → Except InvariantError ResponseShape) (set : SelectionSet) :
    Except InvariantError ResponseShape := do
  let typeCase ← table.partition options set
  typeCase.exhaustive.mapM fun variant => do
    let merged ← table.mergeFields schema options variant.toSelectionSet
    let fields ← merged.mapM fun field =>
      match field.nested with
      | none => .ok (.leaf field)
      | some nested => do .ok (.composite field (← below nested))
    .ok (variant, fields)

/-- What a turn makes depends on the shapes of those selections only to which the turn leads. -/
theorem shapeTurn_congr {below below' : SelectionSet → Except InvariantError ResponseShape}
    (h : ∀ nested, table.Turn schema options set nested → below nested = below' nested) :
    table.shapeTurn schema options below set = table.shapeTurn schema options below' set := by
  rw [shapeTurn, shapeTurn]
  cases hpartition : table.partition options set with
  | error error => rfl
  | ok typeCase =>
      refine mapM_congr fun variant hvariant => ?_
      cases hmerged : table.mergeFields schema options variant.toSelectionSet with
      | error error => rfl
      | ok merged =>
          refine congrArg (· >>= fun fields => .ok (variant, fields))
            (mapM_congr fun field hfield => ?_)
          cases hnested : field.nested with
          | none => rfl
          | some nested =>
              simp only [h nested (.intro hpartition hvariant hmerged hfield hnested)]

theorem shapeWithin_succ (depth : Nat) (set : SelectionSet) :
    table.shapeWithin schema options (depth + 1) set =
      table.shapeTurn schema options (table.shapeWithin schema options depth) set := rfl

/-- Depths above that of the fields are all the same. -/
theorem shapeWithin_eq (h : table.Ordered) (hset : table.AllNestWithin depth set.selections)
    {first second : Nat} (hfirst : depth < first) (hsecond : depth < second) :
    table.shapeWithin schema options first set = table.shapeWithin schema options second set := by
  induction depth using Nat.strongRecOn generalizing set first second with
  | ind depth ih =>
      cases first with
      | zero => exact absurd hfirst (Nat.not_lt_zero depth)
      | succ first =>
          cases second with
          | zero => exact absurd hsecond (Nat.not_lt_zero depth)
          | succ second =>
              rw [shapeWithin_succ, shapeWithin_succ]
              refine shapeTurn_congr fun nested hturn => ?_
              obtain ⟨inner, hlt, hall⟩ := hturn.nestsBelow h hset
              exact ih inner hlt hall (Nat.lt_of_lt_of_le hlt (Nat.le_of_lt_succ hfirst))
                (Nat.lt_of_lt_of_le hlt (Nat.le_of_lt_succ hsecond))

/-- The shape of a selection set comes from those of the selections to which a turn leads: the depth
for which it is computed cuts nothing off. -/
theorem responseShape_eq (h : table.Ordered) (hset : table.Resolves set) :
    table.responseShape schema options set =
      table.shapeTurn schema options (table.responseShape schema options) set := by
  obtain ⟨depth, hdepth, hall⟩ := nestsWithin_shapeDepth h hset
  rw [responseShape, shapeWithin_eq h hall hdepth (Nat.lt_succ_self depth), shapeWithin_succ]
  refine shapeTurn_congr fun nested hturn => ?_
  obtain ⟨inner, hlt, hinner⟩ := hturn.nestsBelow h hall
  obtain ⟨other, hother, hagain⟩ := nestsWithin_shapeDepth h hinner.resolves
  -- Both bounds hold for what is nested, so the lower one allows to compare the depths.
  rcases Nat.le_total inner other with hle | hle
  · exact shapeWithin_eq h hinner hlt (Nat.lt_of_le_of_lt hle hother)
  · exact shapeWithin_eq h hagain (Nat.lt_of_le_of_lt hle hlt) hother

/-- A shape is missing only because of a conflict. -/
theorem onlyConflicts_shapeTurn (h : table.Ordered) (hset : table.Resolves set)
    {below : SelectionSet → Except InvariantError ResponseShape}
    (hbelow : ∀ nested, table.Turn schema options set nested → OnlyConflicts (below nested)) :
    OnlyConflicts (table.shapeTurn schema options below set) := by
  obtain ⟨typeCase, hpartition, hpresents⟩ := partition_presents h options hset
  rw [shapeTurn, hpartition]
  refine OnlyConflicts.mapM fun variant hvariant => ?_
  refine (OnlyConflicts.mergeFields (hpresents.fieldRecords_eq hvariant table)).bind
    fun merged hmerged => OnlyConflicts.bind (OnlyConflicts.mapM fun field hfield => ?_)
      fun _ _ => OnlyConflicts.ok _
  cases hnested : field.nested with
  | none => exact OnlyConflicts.ok _
  | some nested =>
      exact (hbelow nested (.intro hpartition hvariant hmerged hfield hnested)).bind
        fun _ _ => OnlyConflicts.ok _

theorem onlyConflicts_shapeWithin (h : table.Ordered)
    (hset : table.AllNestWithin depth set.selections) (bound : Nat) :
    OnlyConflicts (table.shapeWithin schema options bound set) := by
  induction bound generalizing depth set with
  | zero => exact OnlyConflicts.ok []
  | succ bound ih =>
      rw [shapeWithin_succ]
      refine onlyConflicts_shapeTurn h hset.resolves fun nested hturn => ?_
      obtain ⟨inner, -, hinner⟩ := hturn.nestsBelow h hset
      exact ih hinner

end FragmentTable

/-! ## Compiled documents -/

section Documents

variable {texts : List SourceText} {document : CompiledDocument}

/-- The turns from any selection set of a compiled document come to an end. Wherever they lead,
partitioning succeeds, merging fails only with a conflict, for the selection set itself as for each
of its variants, and the shape that is computed is that of the recursion by turns. It is missing
only because of a conflict. -/
theorem Schema.shapes_end (h : schema.compile texts = .ok document) (hset : document.Has set)
    (options : TypeCaseOptions) :
    Acc (fun nested outer => document.fragments.Turn schema options outer nested) set ∧
    ∀ reached, Relation.ReflTransGen (document.fragments.Turn schema options) set reached →
      (∃ typeCase, document.fragments.partition options reached = .ok typeCase ∧
        ∀ variant, variant = typeCase.default ∨ variant ∈ typeCase.exhaustive →
          OnlyConflicts (document.fragments.mergeFields schema options variant.toSelectionSet)) ∧
      OnlyConflicts (document.fragments.mergeFields schema options reached) ∧
      document.fragments.responseShape schema options reached =
        document.fragments.shapeTurn schema options
          (document.fragments.responseShape schema options) reached ∧
      OnlyConflicts (document.fragments.responseShape schema options reached) := by
  obtain ⟨definitions, hfrom⟩ := Schema.compile_spec h
  have hordered := hfrom.ordered
  obtain ⟨depth, -, hall⟩ :=
    FragmentTable.nestsWithin_shapeDepth hordered (hfrom.resolves hset)
  refine ⟨FragmentTable.acc_turn hordered hall, fun reached hreached => ?_⟩
  obtain ⟨inner, hinner⟩ := FragmentTable.allNestWithin_of_turns hordered hall hreached
  have hresolves := hinner.resolves
  obtain ⟨typeCase, hpartition, hpresents⟩ :=
    FragmentTable.partition_presents hordered options hresolves
  refine ⟨⟨typeCase, hpartition, fun variant hvariant => ?_⟩, ?_, ?_, ?_⟩
  · obtain ⟨records, hrecords⟩ := hpresents.toGathers.exists_fieldRecords hvariant
    exact OnlyConflicts.mergeFields hrecords
  · obtain ⟨records, hrecords⟩ := FragmentTable.exists_fieldRecords_of_resolves hordered hresolves
    exact OnlyConflicts.mergeFields hrecords
  · exact FragmentTable.responseShape_eq hordered hresolves
  · exact FragmentTable.onlyConflicts_shapeWithin hordered hinner _

/-- Walking down goes by turns. -/
theorem Walk.turns {root : SelectionSet} {path : List (ObjectId × String)}
    (h : Walk table schema root path set) :
    Relation.ReflTransGen (table.Turn schema .standard) root set := by
  induction h with
  | here => exact .refl
  | down _ hpartition hmem _ hfields hfield hnested ih =>
      exact ih.tail (.intro hpartition hmem hfields hfield hnested)

theorem Schema.shapes_end_sample : ∃ document operation path reached,
    Sample.schema.compile Sample.texts = .ok document ∧ operation ∈ document.operations ∧
      document.Has operation.selections ∧ path ≠ [] ∧
      Walk document.fragments Sample.schema operation.selections path reached ∧
      Relation.ReflTransGen (document.fragments.Turn Sample.schema .standard) operation.selections
        reached ∧
      Acc (fun nested outer => document.fragments.Turn Sample.schema .standard outer nested)
        operation.selections ∧
      document.fragments.responseShape Sample.schema .standard reached =
        document.fragments.shapeTurn Sample.schema .standard
          (document.fragments.responseShape Sample.schema .standard) reached ∧
      OnlyConflicts (document.fragments.responseShape Sample.schema .standard reached) := by
  have hcheck : ((Sample.schema.compile Sample.texts).toOption.any fun document =>
      document.operations.any fun operation =>
        Sample.turns 1 document operation.selections) = true := by decide +kernel
  obtain ⟨document, hdocument, hany⟩ := (Option.any_eq_true _ _).mp hcheck
  have hcompile := Sample.mem_toOption.mp (Option.mem_def.mpr hdocument)
  obtain ⟨operation, hoperation, hturns⟩ := List.any_eq_true.mp hany
  obtain ⟨path, reached, hne, hwalk, -, -⟩ := Sample.exists_walk hturns
  have hset : document.Has operation.selections := .operation hoperation (.self _)
  obtain ⟨hacc, hall⟩ := Schema.shapes_end hcompile hset .standard
  obtain ⟨-, -, hshape, honly⟩ := hall reached hwalk.turns
  exact ⟨document, operation, path, reached, hcompile, hoperation, hset, hne, hwalk, hwalk.turns,
    hacc, hshape, honly⟩

end Documents

end QueryShape
