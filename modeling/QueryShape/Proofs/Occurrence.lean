import QueryShape.TypeCase.Partition

/-!
# What a selection set selects for an object type

For one object type a selection set is a list of fields: fields of its own, and fields of
the inline fragments and spread fragments that apply to the type, in the order of the
document. Every field is listed with the conditions on the way to it. The list is defined
by recursion on selections alone and knows nothing of variants, which makes it the measure
of partitioning and merging.

## What this module delivers

- `Item`, `Occurrence`: a field, or a spread that is not looked through, and the conditions
  on the way to it.
- `opened`: what a spread stands for.
- `Selection.occurrences`, `FragmentTable.occurrences`: what is selected for an object type.
- `Selection.content`, `Variant.content`: all that a variant holds, looked at through its
  inline fragments, which carry nothing but conditions.
- `FragmentTable.Ordered`, `FragmentTable.Resolves`: fragments spread earlier fragments
  only, and all spreads lead to a fragment.
- `FragmentTable.fragmentOccurrences_eq`: in an ordered table the occurrences of a fragment
  are those of its selections, so the bound on the depth cuts nothing off.
-/

set_option autoImplicit false

namespace QueryShape

/-- What stands at the level of a selection set: a field, or a spread that is not looked
through. -/
inductive Item where
  | field (head : FieldSelection) (nested : Option SelectionSet)
  | spread (id : FragmentId)

/-- Items are the same if all their parts are, the literals of arguments included. -/
noncomputable instance : DecidableEq Item :=
  fun _ _ => Classical.propDecidable _

/-- An item with the conditions on the way to it, its own included. -/
structure Occurrence where
  conditions : List Condition
  item : Item

/-- Puts further conditions in front. -/
def Occurrence.under (conditions : List Condition) (occurrence : Occurrence) : Occurrence :=
  { occurrence with conditions := conditions ++ occurrence.conditions }

@[simp] theorem Occurrence.item_under (conditions : List Condition) (occurrence : Occurrence) :
    (occurrence.under conditions).item = occurrence.item := rfl

@[simp] theorem Occurrence.under_nil : Occurrence.under [] = id := rfl

theorem Occurrence.map_item_under (conditions : List Condition) (occurrences : List Occurrence) :
    (occurrences.map (Occurrence.under conditions)).map Occurrence.item =
      occurrences.map Occurrence.item := by
  rw [List.map_map]
  exact List.map_congr_left fun occurrence _ => Occurrence.item_under conditions occurrence

/-! ## Occurrences for an object type -/

/-- What a spread stands for: what the fragment selects, or the spread itself if fragments
are not looked through. -/
def opened (expand : FragmentId → List Occurrence) (options : TypeCaseOptions)
    (id : FragmentId) : List Occurrence :=
  if options.mergeSpreads then expand id else [⟨[], .spread id⟩]

mutual

/-- What a selection selects for an object type, given what fragments select for it. -/
def Selection.occurrences (expand : FragmentId → List Occurrence) (options : TypeCaseOptions)
    (type : ObjectId) : Selection → List Occurrence
  | .field head nested => [⟨head.conditions, .field head nested⟩]
  | .spread head =>
      if type ∈ head.possible then
        (opened expand options head.fragment).map (Occurrence.under (conditionsOf head.directives))
      else []
  | .inline head ⟨_, narrowed, selections⟩ =>
      if type ∈ narrowed then
        (Selection.occurrencesIn expand options type selections).map
          (Occurrence.under (conditionsOf head.directives))
      else []

/-- What selections select for an object type, in order. -/
def Selection.occurrencesIn (expand : FragmentId → List Occurrence) (options : TypeCaseOptions)
    (type : ObjectId) : List Selection → List Occurrence
  | [] => []
  | selection :: rest =>
      selection.occurrences expand options type ++
        Selection.occurrencesIn expand options type rest

end

namespace FragmentTable

/-- What a fragment selects for an object type, with spreads nested down to a depth. -/
def fragmentOccurrencesWithin (table : FragmentTable) (options : TypeCaseOptions)
    (type : ObjectId) : Nat → FragmentId → List Occurrence
  | 0, _ => []
  | depth + 1, id =>
      match table.get? id with
      | none => []
      | some fragment =>
          Selection.occurrencesIn (table.fragmentOccurrencesWithin options type depth) options
            type fragment.selections.selections

/-- What a fragment selects for an object type. -/
def fragmentOccurrences (table : FragmentTable) (options : TypeCaseOptions) (type : ObjectId) :
    FragmentId → List Occurrence :=
  table.fragmentOccurrencesWithin options type table.size

/-- What a selection set selects for an object type. -/
def occurrences (table : FragmentTable) (options : TypeCaseOptions) (type : ObjectId)
    (set : SelectionSet) : List Occurrence :=
  Selection.occurrencesIn (table.fragmentOccurrences options type) options type set.selections

end FragmentTable

/-! ## Content of a variant -/

mutual

/-- What a selection holds, looked at through inline fragments. -/
def Selection.content : Selection → List Occurrence
  | .field head nested => [⟨head.conditions, .field head nested⟩]
  | .spread head => [⟨conditionsOf head.directives, .spread head.fragment⟩]
  | .inline head ⟨_, _, selections⟩ =>
      (Selection.contentIn selections).map (Occurrence.under (conditionsOf head.directives))

/-- What selections hold, in order. -/
def Selection.contentIn : List Selection → List Occurrence
  | [] => []
  | selection :: rest => selection.content ++ Selection.contentIn rest

end

/-- What a variant holds, in order. -/
def Variant.content (variant : Variant) : List Occurrence :=
  Selection.contentIn variant.selections

theorem Selection.contentIn_append (first second : List Selection) :
    Selection.contentIn (first ++ second) =
      Selection.contentIn first ++ Selection.contentIn second := by
  induction first with
  | nil => rfl
  | cons selection rest ih => simp only [List.cons_append, contentIn, ih, List.append_assoc]

/-! ## Ordered tables -/

namespace FragmentTable

/-- Every fragment spreads, at any depth, fragments before it only. -/
def Ordered (table : FragmentTable) : Prop :=
  ∀ (id : FragmentId) (fragment : Fragment), table.get? id = some fragment →
    ∀ spread ∈ Selection.spreadsIn fragment.selections.selections, spread < id

/-- Every fragment that is spread in a selection set, at any depth, is in the table. -/
def Resolves (table : FragmentTable) (set : SelectionSet) : Prop :=
  ∀ id ∈ Selection.spreadsIn set.selections, id < table.size

theorem get?_eq_some_of_lt {table : FragmentTable} {id : FragmentId} (h : id < table.size) :
    ∃ fragment, table.get? id = some fragment :=
  ⟨table.fragments[id], List.getElem?_eq_getElem h⟩

theorem lt_size_of_get?_eq_some {table : FragmentTable} {id : FragmentId} {fragment : Fragment}
    (h : table.get? id = some fragment) : id < table.size :=
  (List.getElem?_eq_some_iff.mp h).1

theorem Ordered.resolves {table : FragmentTable} (h : table.Ordered) {id : FragmentId}
    {fragment : Fragment} (hget : table.get? id = some fragment) :
    table.Resolves fragment.selections := fun spread hspread =>
  Nat.lt_trans (h id fragment hget spread hspread) (lt_size_of_get?_eq_some hget)

end FragmentTable

mutual

theorem Selection.occurrences_congr {expand expand' : FragmentId → List Occurrence}
    (options : TypeCaseOptions) (type : ObjectId) (selection : Selection)
    (h : ∀ id ∈ selection.spreads, expand id = expand' id) :
    selection.occurrences expand options type = selection.occurrences expand' options type := by
  cases selection with
  | field head nested => simp only [Selection.occurrences]
  | spread head =>
      have hid : expand head.fragment = expand' head.fragment :=
        h head.fragment (by simp [Selection.spreads])
      simp only [Selection.occurrences, opened, hid]
  | inline head nested =>
      obtain ⟨parent, narrowed, selections⟩ := nested
      have hinner := Selection.occurrencesIn_congr options type selections
        (fun id hid => h id (by simpa [Selection.spreads] using hid))
      simp only [Selection.occurrences, hinner]

theorem Selection.occurrencesIn_congr {expand expand' : FragmentId → List Occurrence}
    (options : TypeCaseOptions) (type : ObjectId) (selections : List Selection)
    (h : ∀ id ∈ Selection.spreadsIn selections, expand id = expand' id) :
    Selection.occurrencesIn expand options type selections =
      Selection.occurrencesIn expand' options type selections := by
  cases selections with
  | nil => rfl
  | cons selection rest =>
      have hfirst := Selection.occurrences_congr options type selection
        (fun id hid => h id (by simp [Selection.spreadsIn, hid]))
      have hrest := Selection.occurrencesIn_congr options type rest
        (fun id hid => h id (by simp [Selection.spreadsIn, hid]))
      simp only [Selection.occurrencesIn, hfirst, hrest]

end

namespace FragmentTable

variable {table : FragmentTable} {options : TypeCaseOptions} {type : ObjectId}

/-- Depths above the number of a fragment are all the same to it. -/
theorem fragmentOccurrencesWithin_eq (h : table.Ordered) (id : FragmentId) :
    ∀ {depth depth' : Nat}, id < depth → id < depth' →
      table.fragmentOccurrencesWithin options type depth id =
        table.fragmentOccurrencesWithin options type depth' id := by
  -- The depths go down by one, the numbers of fragments by at least one.
  induction id using Nat.strongRecOn with
  | ind id ih =>
      intro depth depth' hdepth hdepth'
      cases depth with
      | zero => exact absurd hdepth (Nat.not_lt_zero id)
      | succ depth =>
          cases depth' with
          | zero => exact absurd hdepth' (Nat.not_lt_zero id)
          | succ depth' =>
              simp only [fragmentOccurrencesWithin]
              cases hget : table.get? id with
              | none => rfl
              | some fragment =>
                  apply Selection.occurrencesIn_congr options type _
                  intro spread hspread
                  have hlt : spread < id := h id fragment hget spread hspread
                  exact ih spread hlt (Nat.lt_of_lt_of_le hlt (Nat.le_of_lt_succ hdepth))
                    (Nat.lt_of_lt_of_le hlt (Nat.le_of_lt_succ hdepth'))

/-- A fragment selects what its selections select. -/
theorem fragmentOccurrences_eq (h : table.Ordered) {id : FragmentId} {fragment : Fragment}
    (hget : table.get? id = some fragment) :
    table.fragmentOccurrences options type id =
      table.occurrences options type fragment.selections := by
  have hsize : id < table.size := lt_size_of_get?_eq_some hget
  have hdeeper : table.fragmentOccurrences options type id =
      table.fragmentOccurrencesWithin options type (table.size + 1) id :=
    fragmentOccurrencesWithin_eq h id hsize (Nat.lt_succ_of_lt hsize)
  rw [hdeeper]
  simp only [fragmentOccurrencesWithin, hget, occurrences, fragmentOccurrences]

end FragmentTable

end QueryShape
