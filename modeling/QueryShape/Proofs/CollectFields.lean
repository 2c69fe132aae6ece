import QueryShape.Proofs.Executable.Document

/-!
# Collecting fields

A server that executes an operation collects, for the object type at hand, the fields of a
selection set as written: it goes through inline fragments and spreads that apply to the
type, and through every fragment at most once. Conditions are left aside. For each response
key it executes the fields collected under the key as one, whose selections are those of all
of them, one after the other.

## What this module delivers

- `Schema.Applies`: a type condition that an object type meets.
- `CollectedField`: a collected field with its selections.
- `Collects`: the fields collected from selections, with the fragments visited before and
  after.
- `selectionsUnder`: the selections of all fields collected under a response key.
- `Descends`: the selections reached by turns of an object type and a response key.
- `Collects.append`, `Collects.mem_of_visited`: one list after another, and what was visited.
- `Collects.unique`, `Descends.unique`: there is at most one outcome.
-/

set_option autoImplicit false

namespace QueryShape

/-- An object type is a possible type of a type condition. -/
def Schema.Applies (schema : Schema) (type : ObjectId) (condition : String) : Prop :=
  ∃ possible, schema.possibleTypes? condition = some possible ∧ type ∈ possible

/-- A collected field. -/
structure CollectedField where
  field : Source.Field
  selections : List Source.Selection

/-- The response key under which a field is collected. -/
def CollectedField.key (collected : CollectedField) : String :=
  collected.field.givenKey.getD collected.field.name

/-- Collecting the fields of selections for an object type, from the fragments that were
visited before to those that are visited after. -/
inductive Collects (schema : Schema) (texts : List SourceText) (type : ObjectId) :
    List String → List Source.Selection → List CollectedField → List String → Prop
  | nil (visited : List String) : Collects schema texts type visited [] [] visited
  | field {visited after : List String} {field : Source.Field}
      {selections rest : List Source.Selection} {fields : List CollectedField} :
      Collects schema texts type visited rest fields after →
      Collects schema texts type visited (.field field selections :: rest)
        (⟨field, selections⟩ :: fields) after
  | visited {visited after : List String} {spread : Source.Spread}
      {rest : List Source.Selection} {fields : List CollectedField} :
      spread.name ∈ visited → Collects schema texts type visited rest fields after →
      Collects schema texts type visited (.spread spread :: rest) fields after
  | spread {visited middle after : List String} {spread : Source.Spread} {source : FragmentSource}
      {rest : List Source.Selection} {inner fields : List CollectedField} :
      spread.name ∉ visited → fragmentSource? texts spread.name = some source →
      schema.Applies type source.fragment.typeCondition →
      Collects schema texts type (spread.name :: visited) source.fragment.selections inner middle →
      Collects schema texts type middle rest fields after →
      Collects schema texts type visited (.spread spread :: rest) (inner ++ fields) after
  | passSpread {visited after : List String} {spread : Source.Spread}
      {rest : List Source.Selection} {fields : List CollectedField} :
      spread.name ∉ visited →
      (∀ source, fragmentSource? texts spread.name = some source →
        ¬ schema.Applies type source.fragment.typeCondition) →
      Collects schema texts type (spread.name :: visited) rest fields after →
      Collects schema texts type visited (.spread spread :: rest) fields after
  | inline {visited middle after : List String} {fragment : Source.InlineFragment}
      {selections rest : List Source.Selection} {inner fields : List CollectedField} :
      (∀ condition, fragment.typeCondition = some condition → schema.Applies type condition) →
      Collects schema texts type visited selections inner middle →
      Collects schema texts type middle rest fields after →
      Collects schema texts type visited (.inline fragment selections :: rest) (inner ++ fields)
        after
  | passInline {visited after : List String} {fragment : Source.InlineFragment}
      {condition : String} {selections rest : List Source.Selection}
      {fields : List CollectedField} :
      fragment.typeCondition = some condition → ¬ schema.Applies type condition →
      Collects schema texts type visited rest fields after →
      Collects schema texts type visited (.inline fragment selections :: rest) fields after

/-- The selections of all fields collected under a response key. -/
def selectionsUnder (key : String) (fields : List CollectedField) : List Source.Selection :=
  (fields.filter fun collected => collected.key == key).flatMap CollectedField.selections

/-- The selections reached from some selections by turns of an object type, for which fields
are collected, and a response key. -/
inductive Descends (schema : Schema) (texts : List SourceText) (root : List Source.Selection) :
    List (ObjectId × String) → List Source.Selection → Prop
  | here : Descends schema texts root [] root
  | down {path : List (ObjectId × String)} {selections : List Source.Selection}
      {type : ObjectId} {fields : List CollectedField} {visited : List String} (key : String) :
      Descends schema texts root path selections →
      Collects schema texts type [] selections fields visited →
      Descends schema texts root (path ++ [(type, key)]) (selectionsUnder key fields)

namespace Collects

variable {schema : Schema} {texts : List SourceText} {type : ObjectId}
  {before middle after : List String} {first second : List Source.Selection}
  {fields fields' : List CollectedField}

/-- Collecting from one list of selections after another. -/
theorem append (h : Collects schema texts type before first fields middle)
    (h' : Collects schema texts type middle second fields' after) :
    Collects schema texts type before (first ++ second) (fields ++ fields') after := by
  induction h with
  | nil => exact h'
  | field _ ih => exact .field (ih h')
  | visited hvisited _ ih => exact .visited hvisited (ih h')
  | spread hnew hsource happlies hinner _ _ ih =>
      rw [List.append_assoc]
      exact .spread hnew hsource happlies hinner (ih h')
  | passSpread hnew hnone _ ih => exact .passSpread hnew hnone (ih h')
  | inline happlies hinner _ _ ih =>
      rw [List.append_assoc]
      exact .inline happlies hinner (ih h')
  | passInline hcondition hnot _ ih => exact .passInline hcondition hnot (ih h')

/-- What was visited stays visited. -/
theorem mem_of_visited (h : Collects schema texts type before first fields after) {name : String}
    (hname : name ∈ before) : name ∈ after := by
  induction h with
  | nil => exact hname
  | field _ ih => exact ih hname
  | visited _ _ ih => exact ih hname
  | spread _ _ _ _ _ ihinner ih => exact ih (ihinner (List.mem_cons_of_mem _ hname))
  | passSpread _ _ _ ih => exact ih (List.mem_cons_of_mem _ hname)
  | inline _ _ _ ihinner ih => exact ih (ihinner hname)
  | passInline _ _ _ ih => exact ih hname

/-- A fragment is visited where it is spread, whether it applies or not. -/
theorem mem_of_spread {spread : Source.Spread}
    (h : Collects schema texts type before (.spread spread :: first) fields after) :
    spread.name ∈ after := by
  cases h with
  | visited hvisited hrest => exact hrest.mem_of_visited hvisited
  | spread _ _ _ hinner hrest =>
      exact hrest.mem_of_visited (hinner.mem_of_visited List.mem_cons_self)
  | passSpread _ _ hrest => exact hrest.mem_of_visited List.mem_cons_self

/-- Names that were visited stay so, and the name of a spread comes to them. -/
theorem mem_of_seen {seen : NameSet} {spread : Source.Spread}
    (h : Collects schema texts type before (.spread spread :: first) fields after)
    (hseen : ∀ name ∈ seen.names, name ∈ before) :
    ∀ name ∈ (seen.insert spread.name).names, name ∈ after :=
  NameSet.forall_mem_insert.mpr
    ⟨fun name hname => h.mem_of_visited (hseen name hname), h.mem_of_spread⟩

/-- Collecting has at most one outcome. -/
theorem unique {after' : List String}
    (h : Collects schema texts type before first fields after)
    (h' : Collects schema texts type before first fields' after') :
    fields' = fields ∧ after' = after := by
  induction h generalizing fields' after' with
  | nil =>
      cases h'
      exact ⟨rfl, rfl⟩
  | field _ ih =>
      cases h' with
      | field hrest =>
          obtain ⟨rfl, rfl⟩ := ih hrest
          exact ⟨rfl, rfl⟩
  | visited hvisited _ ih =>
      cases h' with
      | visited _ hrest => exact ih hrest
      | spread hnew => exact absurd hvisited hnew
      | passSpread hnew => exact absurd hvisited hnew
  | spread hnew hsource happlies _ _ ihinner ih =>
      cases h' with
      | visited hvisited => exact absurd hvisited hnew
      | spread _ hsource' _ hinner hrest =>
          obtain rfl := Option.some.inj (hsource.symm.trans hsource')
          obtain ⟨rfl, rfl⟩ := ihinner hinner
          obtain ⟨rfl, rfl⟩ := ih hrest
          exact ⟨rfl, rfl⟩
      | passSpread _ hnone => exact absurd happlies (hnone _ hsource)
  | passSpread hnew hnone _ ih =>
      cases h' with
      | visited hvisited => exact absurd hvisited hnew
      | spread _ hsource happlies => exact absurd happlies (hnone _ hsource)
      | passSpread _ _ hrest => exact ih hrest
  | inline happlies _ _ ihinner ih =>
      cases h' with
      | inline _ hinner hrest =>
          obtain ⟨rfl, rfl⟩ := ihinner hinner
          obtain ⟨rfl, rfl⟩ := ih hrest
          exact ⟨rfl, rfl⟩
      | passInline hcondition hnot => exact absurd (happlies _ hcondition) hnot
  | passInline hcondition hnot _ ih =>
      cases h' with
      | inline happlies => exact absurd (happlies _ hcondition) hnot
      | passInline _ _ hrest => exact ih hrest

end Collects

/-- Each path leads to at most one list of selections. -/
theorem Descends.unique {schema : Schema} {texts : List SourceText}
    {root selections selections' : List Source.Selection} {path : List (ObjectId × String)}
    (h : Descends schema texts root path selections)
    (h' : Descends schema texts root path selections') : selections' = selections := by
  induction h generalizing selections' with
  | here =>
      generalize hpath : ([] : List (ObjectId × String)) = path at h'
      cases h' with
      | here => rfl
      | down => exact absurd hpath.symm (by simp)
  | @down path selections type fields visited key _ hcollects ih =>
      generalize hpath : path ++ [(type, key)] = whole at h'
      cases h' with
      | here => exact absurd hpath (by simp)
      | down key' hbefore hcollects' =>
          obtain ⟨rfl, hlast⟩ := List.append_inj' hpath rfl
          cases hlast
          obtain rfl := ih hbefore
          obtain ⟨rfl, -⟩ := hcollects.unique hcollects'
          rfl

end QueryShape
