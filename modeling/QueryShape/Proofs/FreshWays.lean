import QueryShape.Proofs.Ways

/-!
# Fresh ways

Partitioning passes over a spread if its fragment was spread before for all of the object types
at hand, whatever conditions stood on the earlier spreads. What it looks at are fresh ways: ways
on which every spread brings its fragment to some object type for the first time. Along a way the
object types at hand narrow to those that everything crossed so far applies to.

## What this module delivers

- `FragmentTable.FreshBehind`: a spread that brings its fragment to some object type.
- `FragmentTable.ReachesFresh`: fresh ways.
- `FragmentTable.ReachesFresh.reaches`: fresh ways are ways.
- `FragmentTable.reachesFresh_concat`, `FragmentTable.FreshLast`: the fresh ways that one more
  selection opens.
- `FragmentTable.AssuresFresh`: a fresh way to a response key on which nothing can exclude it.
-/

set_option autoImplicit false

namespace QueryShape

namespace FragmentTable

/-! ## Definitions -/

/-- A spread is fresh behind some selections if there is an object type that it applies to and
for which they do not spread its fragment, at any depth. -/
def FreshBehind (table : FragmentTable) (possible : PossibleTypes) (before : List Selection)
    (head : SpreadSelection) : Prop :=
  ∃ type ∈ possible, type ∈ head.possible ∧ ¬ table.Spreads type before head.fragment

/-- Some way leads from selections to an occurrence of a field, and every spread on it is fresh
behind the selections before it. The object types of everything crossed pass a test. -/
inductive ReachesFresh (table : FragmentTable) (applies : PossibleTypes → Prop) :
    PossibleTypes → List Selection → Occurrence → Prop
  | field {possible : PossibleTypes} {selections : List Selection} {head : FieldSelection}
      {nested : Option SelectionSet} :
      .field head nested ∈ selections →
      table.ReachesFresh applies possible selections ⟨head.conditions, .field head nested⟩
  | spread {possible : PossibleTypes} {selections before after : List Selection}
      {head : SpreadSelection} {fragment : Fragment} {occurrence : Occurrence} :
      selections = before ++ .spread head :: after → applies head.possible →
      table.FreshBehind possible before head → table.get? head.fragment = some fragment →
      table.ReachesFresh applies (possible ∩ head.possible) fragment.selections.selections
        occurrence →
      table.ReachesFresh applies possible selections
        (occurrence.under (conditionsOf head.directives))
  | inline {possible narrowed : PossibleTypes} {selections nested : List Selection}
      {head : InlineSelection} {parent : String} {occurrence : Occurrence} :
      .inline head ⟨parent, narrowed, nested⟩ ∈ selections → applies narrowed →
      table.ReachesFresh applies (possible ∩ narrowed) nested occurrence →
      table.ReachesFresh applies possible selections
        (occurrence.under (conditionsOf head.directives))

/-- Some fresh way leads to a field of a response key for an object type, and no condition on it
can exclude the field. -/
def AssuresFresh (table : FragmentTable) (type : ObjectId) (set : SelectionSet) (key : String) :
    Prop :=
  ∃ occurrence, table.ReachesFresh (type ∈ ·) set.possible set.selections occurrence ∧
    occurrence.HasKey key ∧ occurrence.conditions = []

/-- The occurrences that the last of some selections adds to those of the others. -/
def FreshLast (table : FragmentTable) (applies : PossibleTypes → Prop) (possible : PossibleTypes)
    (before : List Selection) : Selection → Occurrence → Prop
  | .field head nested, occurrence => occurrence = ⟨head.conditions, .field head nested⟩
  | .spread head, occurrence => applies head.possible ∧ table.FreshBehind possible before head ∧
      ∃ fragment, table.get? head.fragment = some fragment ∧ ∃ inner,
        table.ReachesFresh applies (possible ∩ head.possible) fragment.selections.selections
          inner ∧ inner.under (conditionsOf head.directives) = occurrence
  | .inline head ⟨_, narrowed, nested⟩, occurrence => applies narrowed ∧ ∃ inner,
      table.ReachesFresh applies (possible ∩ narrowed) nested inner ∧
        inner.under (conditionsOf head.directives) = occurrence

variable {table : FragmentTable} {applies applies' : PossibleTypes → Prop}
  {possible : PossibleTypes} {before selections : List Selection} {last : Selection}
  {occurrence : Occurrence} {type : ObjectId}

/-! ## Ways -/

theorem ReachesFresh.of_imp (himp : ∀ possible, applies possible → applies' possible)
    (h : table.ReachesFresh applies possible selections occurrence) :
    table.ReachesFresh applies' possible selections occurrence := by
  induction h with
  | field hmem => exact .field hmem
  | spread heq happlies hfresh hget _ ih => exact .spread heq (himp _ happlies) hfresh hget ih
  | inline hmem happlies _ ih => exact .inline hmem (himp _ happlies) ih

theorem reachesFresh_congr (h : ∀ possible, applies possible ↔ applies' possible) :
    table.ReachesFresh applies possible selections occurrence ↔
      table.ReachesFresh applies' possible selections occurrence :=
  ⟨.of_imp fun possible => (h possible).mp, .of_imp fun possible => (h possible).mpr⟩

theorem ReachesFresh.reaches (h : table.ReachesFresh applies possible selections occurrence) :
    table.Reaches applies selections occurrence := by
  induction h with
  | field hmem => exact .field hmem
  | spread heq happlies _ hget _ ih =>
      refine .spread ?_ happlies hget ih
      rw [heq]
      exact List.mem_append_right _ List.mem_cons_self
  | inline hmem happlies _ ih => exact .inline hmem happlies ih

theorem AssuresFresh.assures {set : SelectionSet} {key : String}
    (h : table.AssuresFresh type set key) : table.Assures type set.selections key := by
  obtain ⟨occurrence, hfresh, hkey, hnone⟩ := h
  exact ⟨occurrence, hfresh.reaches, hkey, hnone⟩

/-! ## One more selection -/

@[simp] theorem not_reachesFresh_nil : ¬ table.ReachesFresh applies possible [] occurrence := by
  intro h
  cases h with
  | field hmem => exact absurd hmem List.not_mem_nil
  | spread heq => exact absurd heq (by simp)
  | inline hmem => exact absurd hmem List.not_mem_nil

/-- A place in a list with one more entry is the last or one before. -/
theorem concat_eq_append_cons {α : Type} {list before after : List α} {last entry : α}
    (h : list ++ [last] = before ++ entry :: after) :
    (list = before ∧ last = entry) ∨ ∃ shorter, list = before ++ entry :: shorter := by
  rcases List.eq_nil_or_concat after with rfl | ⟨shorter, other, rfl⟩
  · obtain ⟨hlist, hlast⟩ := List.append_inj' h rfl
    exact Or.inl ⟨hlist, List.head_eq_of_cons_eq hlast⟩
  · rw [List.concat_eq_append, ← List.cons_append, ← List.append_assoc] at h
    exact Or.inr ⟨shorter, (List.append_inj' h rfl).1⟩

/-- The fresh ways through some selections and one more. What follows a selection has no part in
whether it is fresh. -/
theorem reachesFresh_concat :
    table.ReachesFresh applies possible (before ++ [last]) occurrence ↔
      table.ReachesFresh applies possible before occurrence ∨
        table.FreshLast applies possible before last occurrence := by
  constructor
  · intro h
    cases h with
    | field hmem =>
        rcases List.mem_append.mp hmem with hbefore | hlast
        · exact Or.inl (.field hbefore)
        · obtain rfl := List.mem_singleton.mp hlast
          exact Or.inr rfl
    | spread heq happlies hfresh hget hinner =>
        -- The spread is the last selection, or it stands at the same place without it.
        rcases concat_eq_append_cons heq with ⟨rfl, rfl⟩ | ⟨shorter, hshorter⟩
        · exact Or.inr ⟨happlies, hfresh, _, hget, _, hinner, rfl⟩
        · exact Or.inl (.spread hshorter happlies hfresh hget hinner)
    | inline hmem happlies hinner =>
        rcases List.mem_append.mp hmem with hbefore | hlast
        · exact Or.inl (.inline hbefore happlies hinner)
        · obtain rfl := List.mem_singleton.mp hlast
          exact Or.inr ⟨happlies, _, hinner, rfl⟩
  · rintro (h | h)
    · cases h with
      | field hmem => exact .field (List.mem_append_left _ hmem)
      | @spread _ _ earlier later head _ _ heq happlies hfresh hget hinner =>
          have hplace : before ++ [last] = earlier ++ .spread head :: (later ++ [last]) := by
            rw [heq, List.append_assoc, List.cons_append]
          exact .spread hplace happlies hfresh hget hinner
      | inline hmem happlies hinner => exact .inline (List.mem_append_left _ hmem) happlies hinner
    · have hlast : last ∈ before ++ [last] :=
        List.mem_append_right _ (List.mem_singleton_self last)
      cases last with
      | field head nested =>
          obtain rfl := h
          exact .field hlast
      | spread head =>
          obtain ⟨happlies, hfresh, fragment, hget, inner, hinner, rfl⟩ := h
          exact .spread rfl happlies hfresh hget hinner
      | inline head set =>
          obtain ⟨parent, narrowed, nested⟩ := set
          obtain ⟨happlies, inner, hinner, rfl⟩ := h
          exact .inline hlast happlies hinner

/-! ## Spreads of one selection -/

variable {id : FragmentId}

@[simp] theorem not_spreads_field {head : FieldSelection} {nested : Option SelectionSet} :
    ¬ table.Spreads type [.field head nested] id := by
  intro h
  cases h with
  | here hmem => exact nomatch List.mem_singleton.mp hmem
  | spread hmem => exact nomatch List.mem_singleton.mp hmem
  | inline hmem => exact nomatch List.mem_singleton.mp hmem

theorem spreads_spread {head : SpreadSelection} {fragment : Fragment}
    (hget : table.get? head.fragment = some fragment) :
    table.Spreads type [.spread head] id ↔ type ∈ head.possible ∧
      (id = head.fragment ∨ table.Spreads type fragment.selections.selections id) := by
  constructor
  · intro h
    cases h with
    | here hmem htype =>
        cases List.mem_singleton.mp hmem
        exact ⟨htype, Or.inl rfl⟩
    | spread hmem htype hget' hinner =>
        cases List.mem_singleton.mp hmem
        obtain rfl := Option.some.inj (hget.symm.trans hget')
        exact ⟨htype, Or.inr hinner⟩
    | inline hmem => exact nomatch List.mem_singleton.mp hmem
  · rintro ⟨htype, rfl | hinner⟩
    · exact .here List.mem_cons_self htype
    · exact .spread List.mem_cons_self htype hget hinner

/-- What a spread of a known fragment spreads is known. -/
theorem Spreads.of_spread {head : SpreadSelection} (h : table.Spreads type [.spread head] id)
    (hknown : type ∈ head.possible → table.Spreads type before head.fragment) :
    table.Spreads type before id := by
  cases h with
  | here hmem htype =>
      cases List.mem_singleton.mp hmem
      exact hknown htype
  | spread hmem htype hget hinner =>
      cases List.mem_singleton.mp hmem
      exact (hknown htype).trans hget hinner
  | inline hmem => exact nomatch List.mem_singleton.mp hmem

theorem spreads_inline {head : InlineSelection} {parent : String} {narrowed : PossibleTypes}
    {nested : List Selection} :
    table.Spreads type [.inline head ⟨parent, narrowed, nested⟩] id ↔
      type ∈ narrowed ∧ table.Spreads type nested id := by
  constructor
  · intro h
    cases h with
    | here hmem => exact nomatch List.mem_singleton.mp hmem
    | spread hmem => exact nomatch List.mem_singleton.mp hmem
    | inline hmem htype hinner =>
        cases List.mem_singleton.mp hmem
        exact ⟨htype, hinner⟩
  · rintro ⟨htype, hinner⟩
    exact .inline List.mem_cons_self htype hinner

end FragmentTable

end QueryShape
