import QueryShape.Proofs.MergedPartition
import QueryShape.Proofs.Mirror

/-!
# Response keys from end to end

Compiling, partitioning and merging together answer the question which keys a response holds
for an object type, at every depth. The answer is the one that collecting fields gives for
the documents as written.

## What this module delivers

- `Walk`: the selection sets reached from one by turns of partitioning, merging the fields of
  a variant and going into the nested selections of a merged field.
- `Corresponds`: a selection set lists, for each of its object types, what is collected from
  selections as written.
- `Corresponds.down`: one turn keeps the correspondence.
- `Schema.response_keys`: the keys at every depth of every operation.
-/

set_option autoImplicit false

namespace QueryShape

/-! ## Items of merged fields -/

/-- The item of a record. -/
def FieldRecord.item (record : FieldRecord) : Item :=
  .field record.field record.nested

/-- The response key of an item. A spread has none. -/
def Item.key : Item → String
  | .field head _ => head.responseKey
  | .spread _ => ""

/-- Whether an item is a field under a response key. -/
def Item.hasKey (key : String) : Item → Bool
  | .field head _ => head.responseKey == key
  | .spread _ => false

section Items

variable {schema : Schema} {table : FragmentTable} {type : ObjectId} {item : Item}
  {collected : CollectedField}

theorem Mirrors.hasKey (h : Mirrors schema table item collected) (key : String) :
    item.hasKey key = (collected.key == key) := by
  cases h with
  | leaf hkey _ _ => rw [Item.hasKey, hkey, CollectedField.key]
  | composite hkey _ _ _ _ => rw [Item.hasKey, hkey, CollectedField.key]

theorem Mirrors.key (h : Mirrors schema table item collected) : item.key = collected.key := by
  cases h with
  | leaf hkey _ _ => exact hkey
  | composite hkey _ _ _ _ => exact hkey

/-- The items of the records under a key are the items of the content under that key. -/
theorem map_item_recordsOf (content : List Occurrence) (key : String) :
    (recordsOf (recordsIn content) key).map FieldRecord.item =
      (content.map Occurrence.item).filter (Item.hasKey key) := by
  induction content with
  | nil => rfl
  | cons occurrence content ih =>
      obtain ⟨conditions, item⟩ := occurrence
      cases item with
      | spread id => exact ih
      | field head nested =>
          have hrecords : recordsIn (⟨conditions, .field head nested⟩ :: content) =
              ⟨conditions, head, nested⟩ :: recordsIn content := rfl
          rw [hrecords, recordsOf, List.filter_cons, List.map_cons, List.filter_cons]
          cases hkey : head.responseKey == key with
          | true =>
              have hrecord : (FieldRecord.key ⟨conditions, head, nested⟩ == key) = true := hkey
              have hitem : (Item.field head nested).hasKey key = true := hkey
              rw [if_pos hrecord, if_pos hitem, List.map_cons]
              exact congrArg (Item.field head nested :: ·) ih
          | false =>
              have hrecord : ¬ (FieldRecord.key ⟨conditions, head, nested⟩ == key) = true := by
                rw [FieldRecord.key, hkey]
                exact Bool.false_ne_true
              have hitem : ¬ (Item.field head nested).hasKey key = true := by
                rw [Item.hasKey, hkey]
                exact Bool.false_ne_true
              rw [if_neg hrecord, if_neg hitem]
              exact ih

/-- Where every item mirrors a field, the keys of the records are those of the items. -/
theorem map_key_recordsIn {content : List Occurrence}
    (h : ∀ item ∈ content.map Occurrence.item, ∃ collected, Mirrors schema table item collected) :
    (recordsIn content).map FieldRecord.key = (content.map Occurrence.item).map Item.key := by
  induction content with
  | nil => rfl
  | cons occurrence content ih =>
      obtain ⟨conditions, item⟩ := occurrence
      have hrest := ih fun other hother => h other (List.mem_cons_of_mem _ hother)
      obtain ⟨collected, hmirrors⟩ := h item List.mem_cons_self
      cases hmirrors with
      | leaf => exact congrArg (_ :: ·) hrest
      | composite => exact congrArg (_ :: ·) hrest

end Items

/-! ## Nested selections of merged fields -/

section Nested

variable {schema : Schema} {table : FragmentTable} {type : ObjectId}

theorem itemsFor_append (first second : List Selection) :
    itemsFor table type (first ++ second) = itemsFor table type first ++ itemsFor table type second := by
  induction first with
  | nil => rfl
  | cons selection first ih =>
      rw [List.cons_append, itemsFor, itemsFor, Selection.occurrencesIn, Selection.occurrencesIn,
        List.map_append, List.map_append, List.append_assoc]
      exact congrArg (_ ++ ·) ih

/-- Conditions do not change what is listed. -/
theorem itemsFor_wrapInConditions (conditions : List Condition) {set : SelectionSet}
    (htype : type ∈ set.possible) :
    itemsFor table type (wrapInConditions conditions set) = itemsFor table type set.selections := by
  obtain ⟨parent, possible, selections⟩ := set
  simp only [wrapInConditions]
  split
  · rfl
  · rw [itemsFor_inline, if_pos htype, itemsFor_nil, List.append_nil]

theorem spreadsIn_wrapInConditions (conditions : List Condition) (set : SelectionSet) :
    Selection.spreadsIn (wrapInConditions conditions set) = Selection.spreadsIn set.selections := by
  obtain ⟨parent, possible, selections⟩ := set
  simp only [wrapInConditions]
  split
  · rfl
  · rw [Selection.spreadsIn, Selection.spreads, Selection.spreadsIn, List.append_nil]

theorem spreadsIn_append (first second : List Selection) :
    Selection.spreadsIn (first ++ second) =
      Selection.spreadsIn first ++ Selection.spreadsIn second := by
  induction first with
  | nil => rfl
  | cons selection first ih =>
      rw [List.cons_append, Selection.spreadsIn, Selection.spreadsIn, ih, List.append_assoc]

/-- The nested selections of a record list what its item does, handed down or not. -/
theorem itemsFor_handed (present : Bool) {record : FieldRecord}
    (hpossible : ∀ set, record.nested = some set → type ∈ set.possible) :
    itemsFor table type (record.handed present) = record.item.nestedFor table type := by
  rw [FieldRecord.handed, FieldRecord.item]
  cases hnested : record.nested with
  | none => rfl
  | some set =>
      cases present with
      | false => rfl
      | true => exact itemsFor_wrapInConditions record.conditions (hpossible set hnested)

/-- Joined selections list what the items of the group do, one after the other. -/
theorem itemsFor_joined {records : List FieldRecord}
    (hpossible : ∀ record ∈ records, ∀ set, record.nested = some set → type ∈ set.possible) :
    itemsFor table type (joined records) =
      (records.map FieldRecord.item).flatMap (Item.nestedFor table type) := by
  rw [joined]
  generalize records.any FieldRecord.isUnconditional = present
  induction records with
  | nil => rfl
  | cons record records ih =>
      rw [List.flatMap_cons, itemsFor_append, List.map_cons, List.flatMap_cons,
        itemsFor_handed present (hpossible record List.mem_cons_self),
        ih fun other hother => hpossible other (List.mem_cons_of_mem _ hother)]

/-- What joined selections spread is spread by the selections of some record. -/
theorem exists_of_mem_spreadsIn_joined {records : List FieldRecord} {id : FragmentId}
    (h : id ∈ Selection.spreadsIn (joined records)) :
    ∃ record ∈ records, ∃ set, record.nested = some set ∧
      id ∈ Selection.spreadsIn set.selections := by
  rw [joined] at h
  generalize records.any FieldRecord.isUnconditional = present at h
  induction records with
  | nil => exact absurd h List.not_mem_nil
  | cons record records ih =>
      rw [List.flatMap_cons, spreadsIn_append] at h
      rcases List.mem_append.mp h with hfirst | hrest
      · refine ⟨record, List.mem_cons_self, ?_⟩
        rw [FieldRecord.handed] at hfirst
        cases hnested : record.nested with
        | none =>
            rw [hnested] at hfirst
            exact absurd hfirst List.not_mem_nil
        | some set =>
            rw [hnested] at hfirst
            refine ⟨set, rfl, ?_⟩
            cases present with
            | false => exact hfirst
            | true => rwa [← spreadsIn_wrapInConditions record.conditions set]
      · obtain ⟨other, hother, set, hset⟩ := ih hrest
        exact ⟨other, List.mem_cons_of_mem _ hother, set, hset⟩

end Nested

/-! ## Walking down -/

/-- The selection sets reached from one by turns: partition it, merge the fields of the variant
of an object type, and go into the nested selections of a merged field. -/
inductive Walk (table : FragmentTable) (schema : Schema) (root : SelectionSet) :
    List (ObjectId × String) → SelectionSet → Prop
  | here : Walk table schema root [] root
  | down {path : List (ObjectId × String)} {set nested : SelectionSet} {typeCase : TypeCase}
      {variant : Variant} {type : ObjectId} {fields : List MergedField} {field : MergedField} :
      Walk table schema root path set → table.partition .standard set = .ok typeCase →
      variant ∈ typeCase.exhaustive → type ∈ variant.possible →
      table.mergeFields schema .standard variant.toSelectionSet = .ok fields → field ∈ fields →
      field.nested = some nested →
      Walk table schema root (path ++ [(type, field.responseKey)]) nested

/-- A selection set lists, for each of its object types, what is collected from selections as
written. -/
structure Corresponds (schema : Schema) (texts : List SourceText) (table : FragmentTable)
    (set : SelectionSet) (selections : List Source.Selection) : Prop where
  resolves : table.Resolves set
  collects : ∀ type ∈ set.possible, ∃ fields visited,
    Collects schema texts type [] selections fields visited ∧
      Echoes (Mirrors schema table) (itemsFor table type set.selections) fields

section Walk

variable {schema : Schema} {texts : List SourceText} {definitions : Table FragmentSource}
  {table : FragmentTable} {set nested : SelectionSet} {selections : List Source.Selection}
  {typeCase : TypeCase} {variant : Variant} {type : ObjectId} {fields : List CollectedField}
  {visited : List String}

/-- Selections correspond to their compiled form. -/
theorem Compiles.corresponds (hsound : table.Sound schema definitions)
    (hdefinitions : ∀ name, definitions.get? name = fragmentSource? texts name)
    {file : Option FileName} {parent : NamedType}
    (h : Compiles schema table ⟨file, parent, set.possible⟩ .empty selections set.selections) :
    Corresponds schema texts table set selections where
  resolves := h.spreads_lt
  collects type htype := by
    obtain ⟨more, after, hcollects, hstep⟩ :=
      Compiles.collects hsound hdefinitions table.size (table.before_size.symm ▸ h) htype
        (fun _ hname => absurd hname List.not_mem_nil)
        (fun _ hname => absurd hname List.not_mem_nil) inStep_nil
    exact ⟨more, after, hcollects, hstep.echoes⟩

/-- The content of an exhaustive variant agrees with what is collected for its types. -/
theorem Corresponds.echoes_content (h : Corresponds schema texts table set selections)
    (hpresents : TypeCase.Presents table .standard set.possible
      (fun type => table.occurrences .standard type set) typeCase)
    (hmem : variant ∈ typeCase.exhaustive) (hin : type ∈ variant.possible)
    (hcollects : Collects schema texts type [] selections fields visited) :
    Echoes (Mirrors schema table) (variant.content.map Occurrence.item) fields := by
  obtain ⟨htype, habridges⟩ := hpresents.content_of_mem_exhaustive hmem hin
  obtain ⟨fields', visited', hcollects', hechoes⟩ := h.collects type htype
  obtain ⟨rfl, -⟩ := hcollects'.unique hcollects
  exact hechoes.congr (habridges.eraseDups_map Occurrence.item fun _ _ heq => heq)

/-- The nested selections of a mirrored field are compiled on the type of the field. -/
theorem Mirrors.compiles_nested {head : FieldSelection} {collected : CollectedField}
    (h : Mirrors schema table (.field head (some nested)) collected) :
    ∃ file type, schema.type? head.type.typeName = some type ∧
      schema.possibleTypes? type.name = some nested.possible ∧
      Compiles schema table ⟨file, type, nested.possible⟩ .empty collected.selections
        nested.selections := by
  cases h with
  | composite _ htype _ hpossible hcompiles => exact ⟨_, _, htype, hpossible, hcompiles⟩

/-- The records of a group agree in their possible types, as they agree in their types. -/
theorem Stands.possible_eq {records : List FieldRecord} {field : MergedField}
    (hstands : Stands records field) (hnested : field.nested = some nested)
    (hmirrors : ∀ record ∈ records, ∃ collected, Mirrors schema table record.item collected) :
    ∀ record ∈ records, ∀ inner, record.nested = some inner →
      inner.possible = nested.possible := by
  -- Possible types follow from the type of a field, on which the group agrees.
  have htyped : ∀ record ∈ records, ∀ inner, record.nested = some inner →
      ∃ type, schema.type? field.field.type.typeName = some type ∧
        schema.possibleTypes? type.name = some inner.possible := by
    intro record hrecord inner hinner
    obtain ⟨collected, hmirror⟩ := hmirrors record hrecord
    rw [FieldRecord.item, hinner] at hmirror
    obtain ⟨_, type, htype, hpossible, -⟩ := hmirror.compiles_nested
    rw [hstands.type record hrecord] at htype
    exact ⟨type, htype, hpossible⟩
  obtain ⟨first, hfirst, -, -, hjoined⟩ := hstands.represented
  rw [hnested] at hjoined
  obtain ⟨inner, hinner, rfl⟩ := Option.map_eq_some_iff.mp hjoined.symm
  obtain ⟨type, htype, hpossible⟩ := htyped first hfirst inner hinner
  intro record hrecord other hother
  obtain ⟨type', htype', hpossible'⟩ := htyped record hrecord other hother
  obtain rfl : type = type' := Option.some.inj (htype.symm.trans htype')
  exact Option.some.inj (hpossible'.symm.trans hpossible)

/-- One turn keeps the correspondence: the nested selections of a merged field list what is
collected from the selections of all fields under its key. -/
theorem Corresponds.down (hsound : table.Sound schema definitions)
    (hdefinitions : ∀ name, definitions.get? name = fragmentSource? texts name)
    (h : Corresponds schema texts table set selections)
    (hpresents : TypeCase.Presents table .standard set.possible
      (fun type => table.occurrences .standard type set) typeCase)
    (hmem : variant ∈ typeCase.exhaustive) (hin : type ∈ variant.possible)
    {merged : List MergedField} {field : MergedField}
    (hmerged : table.mergeFields schema .standard variant.toSelectionSet = .ok merged)
    (hfield : field ∈ merged) (hnested : field.nested = some nested)
    (hcollects : Collects schema texts type [] selections fields visited) :
    Corresponds schema texts table nested (selectionsUnder field.responseKey fields) := by
  obtain ⟨-, hstands⟩ := FragmentTable.mergeFields_spec
    (hpresents.fieldRecords_eq hmem table) hmerged
  have hstand := hstands field hfield
  -- The items of the group and the fields under its key agree.
  have hgroup : Echoes (Mirrors schema table)
      ((recordsOf (recordsIn variant.content) field.responseKey).map FieldRecord.item)
      (fields.filter fun collected => collected.key == field.responseKey) := by
    rw [map_item_recordsOf]
    exact (h.echoes_content hpresents hmem hin hcollects).filter _ _ fun item collected hmirrors =>
      hmirrors.hasKey field.responseKey
  generalize recordsOf (recordsIn variant.content) field.responseKey = records at hstand hgroup
  have hmirrors : ∀ record ∈ records, ∃ collected, Mirrors schema table record.item collected := by
    intro record hrecord
    obtain ⟨collected, -, hmirrors⟩ := hgroup.exists_value (List.mem_map_of_mem hrecord)
    exact ⟨collected, hmirrors⟩
  have hpossible := hstand.possible_eq hnested hmirrors
  have hselections : nested.selections = joined records := by
    obtain ⟨first, -, -, -, hjoined⟩ := hstand.represented
    rw [hnested] at hjoined
    obtain ⟨inner, -, rfl⟩ := Option.map_eq_some_iff.mp hjoined.symm
    rfl
  refine ⟨fun id hid => ?_, fun other hother => ?_⟩
  · -- What is joined was compiled with some field of the group.
    rw [hselections] at hid
    obtain ⟨record, hrecord, inner, hinner, hspread⟩ := exists_of_mem_spreadsIn_joined hid
    obtain ⟨collected, hmirror⟩ := hmirrors record hrecord
    rw [FieldRecord.item, hinner] at hmirror
    obtain ⟨_, _, -, -, hcompiles⟩ := hmirror.compiles_nested
    exact hcompiles.spreads_lt id hspread
  · -- The next object type is possible for all fields of the group, so none is passed over.
    have hinside : ∀ record ∈ records, ∀ inner, record.nested = some inner →
        other ∈ inner.possible := fun record hrecord inner hinner =>
      (hpossible record hrecord inner hinner).symm ▸ hother
    have hitems : ∀ head inner, Item.field head (some inner) ∈
        (records.map FieldRecord.item).eraseDups → other ∈ inner.possible := by
      intro head inner hitem
      obtain ⟨record, hrecord, heq⟩ := List.mem_map.mp (List.mem_eraseDups.mp hitem)
      exact hinside record hrecord inner (Item.field.inj heq).2
    obtain ⟨more, after, hcollects', hstep⟩ :=
      Follows.collects hsound hdefinitions hgroup hitems
    refine ⟨more, after, hcollects', ?_⟩
    rw [hselections, itemsFor_joined hinside]
    exact hstep.echoes.congr (eraseDups_flatMap _ _).symm

end Walk

/-! ## The keys of a response -/

section Response

variable {schema : Schema} {texts : List SourceText} {definitions : Table FragmentSource}
  {document : CompiledDocument} {path : List (ObjectId × String)} {root set : SelectionSet}
  {source : List Source.Selection}

/-- What is reached by walking down corresponds to what is reached by descending. -/
theorem Walk.corresponds (hsound : document.fragments.Sound schema definitions)
    (hdefinitions : ∀ name, definitions.get? name = fragmentSource? texts name)
    (hroot : Corresponds schema texts document.fragments root source)
    (hwalk : Walk document.fragments schema root path set) :
    ∃ selections, Descends schema texts source path selections ∧
      Corresponds schema texts document.fragments set selections := by
  -- The correspondence holds at the root, and each turn keeps it.
  induction hwalk with
  | here => exact ⟨source, .here, hroot⟩
  | @down path set nested typeCase variant type merged field _ hpartition hmem hin hmerged hfield
      hnested ih =>
      obtain ⟨selections, hdescends, hcorresponds⟩ := ih
      obtain ⟨typeCase', hpartition', hpresents⟩ :=
        FragmentTable.partition_presents hsound.ordered .standard hcorresponds.resolves
      obtain rfl : typeCase' = typeCase := Except.ok.inj (hpartition'.symm.trans hpartition)
      obtain ⟨htype, -⟩ := hpresents.content_of_mem_exhaustive hmem hin
      obtain ⟨fields, visited, hcollects, -⟩ := hcorresponds.collects type htype
      exact ⟨_, .down field.responseKey hdescends hcollects,
        hcorresponds.down hsound hdefinitions hpresents hmem hin hmerged hfield hnested hcollects⟩

/-- The keys of a response, from documents as written to merged fields. Take an operation of a
compiled document and any selection set that is reached from it by turns of partitioning,
merging and going into nested selections. The same turns lead to selections as written, and for
every possible type the keys merged for its variant are the distinct keys of the fields
collected there, in the order of first occurrence. Merging fails only with a conflict. -/
theorem Schema.response_keys (h : schema.compile texts = .ok document) {place : Nat}
    {operation : Operation} (hplace : document.operations[place]? = some operation)
    (hwalk : Walk document.fragments schema operation.selections path set) :
    ∃ source, (operationSources texts)[place]? = some source ∧
      ∃ selections, Descends schema texts source.2.selections path selections ∧
        (∀ others, Descends schema texts source.2.selections path others → others = selections) ∧
        ∃ typeCase, document.fragments.partition .standard set = .ok typeCase ∧
          ∀ type ∈ set.possible, ∃ variant ∈ typeCase.exhaustive, type ∈ variant.possible ∧
            (∀ other ∈ typeCase.exhaustive, type ∈ other.possible → other = variant) ∧
            ∃ fields visited, Collects schema texts type [] selections fields visited ∧
              (∀ fields' visited', Collects schema texts type [] selections fields' visited' →
                fields' = fields) ∧
              (∀ merged, document.fragments.mergeFields schema .standard variant.toSelectionSet =
                  .ok merged →
                merged.map MergedField.responseKey =
                  (fields.map CollectedField.key).eraseDups) ∧
              ∀ error, document.fragments.mergeFields schema .standard variant.toSelectionSet =
                  .error error →
                ∃ key first second, error = .mergeConflict key first second := by
  obtain ⟨definitions, hfrom⟩ := Schema.compile_spec h
  have hdefinitions := fragmentSources_get? hfrom.sources
  obtain ⟨source, hsource, hcompiles⟩ := hfrom.exists_source hplace
  have hroot : Corresponds schema texts document.fragments operation.selections
      source.2.selections := by
    obtain ⟨_, _, _, _, _, _, _, -, -, -, -, -, -, hselections, rfl⟩ := hcompiles
    exact hselections.corresponds hfrom.sound hdefinitions
  obtain ⟨selections, hdescends, hcorresponds⟩ := hwalk.corresponds hfrom.sound hdefinitions hroot
  obtain ⟨typeCase, hpartition, hpresents⟩ :=
    FragmentTable.partition_presents hfrom.ordered .standard hcorresponds.resolves
  refine ⟨source, hsource, selections, hdescends, fun others hothers =>
    hdescends.unique hothers, typeCase, hpartition, fun type htype => ?_⟩
  obtain ⟨variant, ⟨hmem, hin⟩, hunique⟩ :=
    hpresents.wellFormed.existsUnique_variant (hpresents.spans.symm ▸ htype)
  obtain ⟨fields, visited, hcollects, -⟩ := hcorresponds.collects type htype
  have hechoes := hcorresponds.echoes_content hpresents hmem hin hcollects
  have hrecords := hpresents.fieldRecords_eq hmem document.fragments
  refine ⟨variant, hmem, hin, fun other hother hin' => hunique other ⟨hother, hin'⟩, fields,
    visited, hcollects, fun fields' visited' hcollects' => (hcollects.unique hcollects').1, ?_, ?_⟩
  · intro merged hmerged
    obtain ⟨hkeys, -⟩ := FragmentTable.mergeFields_spec hrecords hmerged
    have hmirrors : ∀ item ∈ variant.content.map Occurrence.item,
        ∃ collected, Mirrors schema document.fragments item collected := by
      intro item hitem
      obtain ⟨collected, -, hmirrors⟩ := hechoes.exists_value hitem
      exact ⟨collected, hmirrors⟩
    rw [hkeys, map_key_recordsIn hmirrors]
    exact hechoes.eraseDups_map Item.key CollectedField.key fun item collected hmirrors =>
      hmirrors.key
  · intro error herror
    rcases FragmentTable.mergeFields_cases schema hrecords with
      ⟨merged, hmerged, -⟩ | ⟨key, first, second, hconflict⟩
    · exact absurd (hmerged.symm.trans herror) (by simp)
    · exact ⟨key, first, second, Except.error.inj (herror.symm.trans hconflict)⟩

/-- Whether the fields of all variants of a selection set can be merged. -/
def Sample.mergesAll (document : CompiledDocument) (set : SelectionSet) : Bool :=
  match document.fragments.partition .standard set with
  | .error _ => false
  | .ok typeCase => typeCase.exhaustive.all fun variant =>
      (document.fragments.mergeFields Sample.schema .standard variant.toSelectionSet).isOk

/-- Whether a turn for the query type leads to such a selection set on an object type. -/
def Sample.turns (type : ObjectId) (document : CompiledDocument) (set : SelectionSet) : Bool :=
  match document.fragments.partition .standard set with
  | .error _ => false
  | .ok typeCase => typeCase.exhaustive.any fun variant => variant.possible.contains 0 &&
      match document.fragments.mergeFields Sample.schema .standard variant.toSelectionSet with
      | .error _ => false
      | .ok fields => fields.any fun field => field.nested.any fun nested =>
          nested.possible.contains type && Sample.mergesAll document nested

/-- A turn that a test finds. -/
theorem Sample.exists_walk {type : ObjectId} (h : Sample.turns type document root = true) :
    ∃ path set, path ≠ [] ∧ Walk document.fragments Sample.schema root path set ∧
      type ∈ set.possible ∧ Sample.mergesAll document set = true := by
  rw [turns] at h
  cases hpartition : document.fragments.partition .standard root with
  | error error =>
      rw [hpartition] at h
      exact absurd h (by simp)
  | ok typeCase =>
      rw [hpartition] at h
      obtain ⟨variant, hmem, hvariant⟩ := List.any_eq_true.mp h
      obtain ⟨hin, hmerges⟩ := Bool.and_eq_true_iff.mp hvariant
      cases hfields : document.fragments.mergeFields schema .standard variant.toSelectionSet with
      | error error =>
          rw [hfields] at hmerges
          exact absurd hmerges (by simp)
      | ok fields =>
          rw [hfields] at hmerges
          obtain ⟨field, hfield, hany⟩ := List.any_eq_true.mp hmerges
          obtain ⟨nested, hnested, hsome⟩ := (Option.any_eq_true _ _).mp hany
          obtain ⟨htype, hall⟩ := Bool.and_eq_true_iff.mp hsome
          exact ⟨[(0, field.responseKey)], nested, by simp,
            Walk.here.down hpartition hmem hin hfields hfield hnested, htype, hall⟩

theorem Schema.response_keys_sample : ∃ document operation path set,
    Sample.schema.compile Sample.texts = .ok document ∧
      document.operations[0]? = some operation ∧ path ≠ [] ∧
      Walk document.fragments Sample.schema operation.selections path set ∧
      ∃ source selections, (operationSources Sample.texts)[0]? = some source ∧
        Descends Sample.schema Sample.texts source.2.selections path selections ∧
        ∃ typeCase, document.fragments.partition .standard set = .ok typeCase ∧
          ∃ variant ∈ typeCase.exhaustive, 1 ∈ variant.possible ∧ ∃ fields visited merged,
            Collects Sample.schema Sample.texts 1 [] selections fields visited ∧
            document.fragments.mergeFields Sample.schema .standard variant.toSelectionSet =
              .ok merged ∧
            merged.map MergedField.responseKey = (fields.map CollectedField.key).eraseDups := by
  have hcheck : ((Sample.schema.compile Sample.texts).toOption.any fun document =>
      document.operations[0]?.any fun operation =>
        Sample.turns 1 document operation.selections) = true := by decide +kernel
  cases hcompile : Sample.schema.compile Sample.texts with
  | error error =>
      rw [hcompile] at hcheck
      exact absurd hcheck (by simp [Except.toOption])
  | ok document =>
      have hoperation : (document.operations[0]?.any fun operation =>
          Sample.turns 1 document operation.selections) = true := by
        rw [hcompile] at hcheck
        exact hcheck
      obtain ⟨operation, hplace, hturns⟩ := (Option.any_eq_true _ _).mp hoperation
      obtain ⟨path, set, hne, hwalk, htype, hmerges⟩ := Sample.exists_walk hturns
      obtain ⟨source, hsource, selections, hdescends, -, typeCase, hpartition, hall⟩ :=
        Schema.response_keys hcompile hplace hwalk
      obtain ⟨variant, hmem, hin, -, fields, visited, hcollects, -, hkeys, -⟩ := hall 1 htype
      rw [Sample.mergesAll, hpartition] at hmerges
      have hvariant := List.all_eq_true.mp hmerges variant hmem
      cases hmerged : document.fragments.mergeFields Sample.schema .standard
          variant.toSelectionSet with
      | error error =>
          rw [hmerged] at hvariant
          exact absurd hvariant (by simp [Except.isOk, Except.toBool])
      | ok merged =>
          exact ⟨document, operation, path, set, rfl, hplace, hne, hwalk, source, selections,
            hsource, hdescends, typeCase, hpartition, variant, hmem, hin, fields, visited, merged,
            hcollects, hmerged, hkeys merged hmerged⟩

end Response

end QueryShape
