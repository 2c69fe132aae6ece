import QueryShape.Executable.Basic
import QueryShape.TypeCase.Options

/-!
# Merging fields by response key

A response holds one value under each key, however often the key is selected. Merging
collects the fields that apply to every possible type of a selection set and joins those
with one key.

## What this module delivers

- `FieldRecord`: an occurrence of a field with all conditions on the way to it.
- `FragmentTable.fieldRecords`: the occurrences that apply to every possible type, in
  order. Fragments are looked through only if they apply to every possible type too.
- `groupByKey`: occurrences by response key, in the order of first occurrence.
- `MergedField`: all occurrences of one key in one field.
- `mergeRecords`: joins the occurrences of one key, which must agree in their types.
- `FragmentTable.mergeFields`: the merged fields of a selection set.
-/

set_option autoImplicit false

namespace QueryShape

/-- An occurrence of a field, with the conditions on all selections on the way to it. -/
structure FieldRecord where
  conditions : List Condition
  field : FieldSelection
  nested : Option SelectionSet
deriving Inhabited

/-- Whether nothing can exclude an occurrence. -/
def FieldRecord.isUnconditional (record : FieldRecord) : Bool :=
  record.conditions.isEmpty

/-- The occurrences in a fragment that applies to all of some object types, reached under
conditions. -/
abbrev Lookup := FragmentId → PossibleTypes → List Condition →
  Except InvariantError (List FieldRecord)

/-! ## Collecting -/

mutual

/-- The occurrences at or under a selection that apply to all possible types. -/
def Selection.fieldRecords (lookup : Lookup) (options : TypeCaseOptions)
    (possible : PossibleTypes) (conditions : List Condition) :
    Selection → Except InvariantError (List FieldRecord)
  | .field head nested => .ok [⟨conditions ++ head.conditions, head, nested⟩]
  | .spread head =>
      if options.mergeSpreads && possible.subset head.possible then
        lookup head.fragment possible (conditions ++ conditionsOf head.directives)
      else .ok []
  | .inline head ⟨_, narrowed, selections⟩ =>
      if possible.subset narrowed then
        Selection.fieldRecordsIn lookup options possible
          (conditions ++ conditionsOf head.directives) selections
      else .ok []

/-- The occurrences in selections, in order. -/
def Selection.fieldRecordsIn (lookup : Lookup) (options : TypeCaseOptions)
    (possible : PossibleTypes) (conditions : List Condition) :
    List Selection → Except InvariantError (List FieldRecord)
  | [] => .ok []
  | selection :: rest => do
      let first ← selection.fieldRecords lookup options possible conditions
      let others ← Selection.fieldRecordsIn lookup options possible conditions rest
      .ok (first ++ others)

end

/-- The occurrences in fragments, with spreads nested down to a depth. -/
def FragmentTable.lookupRecords (table : FragmentTable) (options : TypeCaseOptions) :
    Nat → Lookup
  | 0, id, _, _ => .error (.fragmentMissing id)
  | depth + 1, id, possible, conditions => do
      let fragment ← table.resolve id
      Selection.fieldRecordsIn (table.lookupRecords options depth) options possible conditions
        fragment.selections.selections

/-- The occurrences of fields that apply to all possible types of a selection set. A
selection set that applies to no object type has none. -/
def FragmentTable.fieldRecords (table : FragmentTable) (options : TypeCaseOptions)
    (set : SelectionSet) : Except InvariantError (List FieldRecord) :=
  if set.possible.isEmpty then .ok []
  else
    Selection.fieldRecordsIn (table.lookupRecords options table.size) options set.possible []
      set.selections

/-! ## Grouping -/

/-- Adds an occurrence to the group of its response key. -/
def addToGroup (groups : Table (List FieldRecord)) (record : FieldRecord) :
    Table (List FieldRecord) :=
  let key := record.field.responseKey
  groups.insert key ((groups.get? key).getD [] ++ [record])

/-- Occurrences by response key, in the order of first occurrence. -/
def groupByKey (records : List FieldRecord) : Table (List FieldRecord) :=
  records.foldl addToGroup .empty

/-! ## Joining -/

/-- All occurrences of a response key, joined. -/
structure MergedField where
  field : FieldSelection
  nested : Option SelectionSet
  /-- The conditions on all ways to the field, in the order of the occurrences. -/
  conditions : List Condition
  /-- Whether every way to the field has a condition. -/
  isConditional : Bool
deriving Inhabited

/-- The key under which a response holds the field. -/
def MergedField.responseKey (merged : MergedField) : String :=
  merged.field.responseKey

/-- Hands the conditions of an occurrence down to its nested selections. -/
def FieldRecord.pushDown (record : FieldRecord) : FieldRecord :=
  { record with
    nested := record.nested.map fun set =>
      { set with selections := wrapInConditions record.conditions set } }

/-- The occurrence that represents a group: the first unconditional one, or else the
first. -/
def representative? (records : List FieldRecord) : Option FieldRecord :=
  (records.find? FieldRecord.isUnconditional).or records.head?

/-- Joins the occurrences of a response key. They must have the type of the
representative, which also supplies everything but conditions and nested selections. If
the field is present in any case, the conditions of the other occurrences are handed down
to their nested selections. -/
def mergeRecords (key : String) (records : List FieldRecord) :
    Except InvariantError (Option MergedField) :=
  -- The field itself is there in any case then, and only what is below it depends.
  let records :=
    if records.any FieldRecord.isUnconditional then records.map FieldRecord.pushDown else records
  match representative? records with
  | none => .ok none
  | some first =>
      match records.find? (fun record => record.field.type != first.field.type) with
      | some other =>
          .error (.mergeConflict key first.field.type.render other.field.type.render)
      | none =>
          let selections := records.flatMap
            (fun record => (record.nested.map SelectionSet.selections).getD [])
          .ok (some ⟨first.field, first.nested.map (fun set => { set with selections }),
            records.flatMap FieldRecord.conditions,
            records.all (fun record => !record.isUnconditional)⟩)

/-- Describes merged fields as an object type does: it may be more specific than an
interface. -/
def describeBy (object : FieldedType) (merged : MergedField) : MergedField :=
  match (object.fields.get? merged.field.name).bind FieldDefinition.description with
  | none => merged
  | some description =>
      { merged with field := { merged.field with description := some description } }

/-- The object type that a set consists of, if it has only one member. -/
def Schema.onlyObject? (schema : Schema) (possible : PossibleTypes) : Option FieldedType :=
  if possible.size = 1 then possible.first?.bind schema.object? else none

/-- The merged fields of a selection set, in the order of first occurrence. -/
def FragmentTable.mergeFields (table : FragmentTable) (schema : Schema)
    (options : TypeCaseOptions) (set : SelectionSet) :
    Except InvariantError (List MergedField) := do
  let records ← table.fieldRecords options set
  let merged ← (groupByKey records).entries.mapM (fun (key, group) => mergeRecords key group)
  let fields := merged.filterMap id
  match schema.onlyObject? set.possible with
  | none => .ok fields
  | some object => .ok (fields.map (describeBy object))

end QueryShape
