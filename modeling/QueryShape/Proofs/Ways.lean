import QueryShape.Proofs.Occurrence

/-!
# Ways through a selection set

A way leads from selections to a field, through inline fragments and spreads. What may be
crossed is decided by the object types that it applies to: for one object type all that applies
to it, for a whole selection set only what applies to every type of the set. The conditions met
on a way are those of the occurrence at its end.

## What this module delivers

- `FragmentTable.Reaches`: a way to an occurrence, for any test on what is crossed.
- `FragmentTable.Reaches.of_wrapInConditions`: ways through selections under conditions.
- `FragmentTable.Spreads`: a way to the spread of a fragment.
- `FragmentTable.Assures`: a way to a response key on which nothing can exclude it.
- `FragmentTable.reaches_cons`, `FragmentTable.assures_cons` and their companions for one
  selection of each kind.
- `FragmentTable.reaches_iff`, `FragmentTable.assures_iff`: the ways for an object type lead to
  its occurrences.
-/

set_option autoImplicit false

namespace QueryShape

/-- Every object type of the first set is one of the second. -/
def PossibleTypes.Within (possible other : PossibleTypes) : Prop :=
  ∀ type ∈ possible, type ∈ other

theorem PossibleTypes.inter_within (possible narrowed : PossibleTypes) :
    (possible ∩ narrowed).Within possible :=
  fun _ htype => (mem_inter.mp htype).1

/-! ## Occurrences of a key -/

/-- An occurrence of a field with a response key. -/
def Occurrence.HasKey (key : String) (occurrence : Occurrence) : Prop :=
  ∃ head nested, occurrence.item = .field head nested ∧ head.responseKey = key

instance (key : String) (occurrence : Occurrence) : Decidable (occurrence.HasKey key) :=
  match h : occurrence.item with
  | .field head nested =>
      decidable_of_iff (head.responseKey = key) (by simp [Occurrence.HasKey, h])
  | .spread _ => isFalse (by simp [Occurrence.HasKey, h])

@[simp] theorem Occurrence.conditions_under (conditions : List Condition)
    (occurrence : Occurrence) :
    (occurrence.under conditions).conditions = conditions ++ occurrence.conditions := rfl

theorem Occurrence.under_under (first second : List Condition) (occurrence : Occurrence) :
    (occurrence.under second).under first = occurrence.under (first ++ second) := by
  simp only [Occurrence.under, List.append_assoc]

theorem Selection.mem_occurrencesIn {expand : FragmentId → List Occurrence}
    {options : TypeCaseOptions} {type : ObjectId} {occurrence : Occurrence}
    {selections : List Selection} :
    occurrence ∈ Selection.occurrencesIn expand options type selections ↔
      ∃ selection ∈ selections, occurrence ∈ selection.occurrences expand options type := by
  induction selections with
  | nil => simp [Selection.occurrencesIn]
  | cons selection rest ih =>
      rw [Selection.occurrencesIn, List.mem_append, ih]
      simp

theorem conditionsOf_append (first second : List AppliedDirective) :
    conditionsOf (first ++ second) = conditionsOf first ++ conditionsOf second := by
  rw [conditionsOf, List.filterMap_append, List.filter_append]
  rfl

/-! ## Ways -/

namespace FragmentTable

/-- Some way leads from selections to an occurrence of a field. The object types of every inline
fragment and of every spread on it pass a test. -/
inductive Reaches (table : FragmentTable) (applies : PossibleTypes → Prop) :
    List Selection → Occurrence → Prop
  | field {selections : List Selection} {head : FieldSelection} {nested : Option SelectionSet} :
      .field head nested ∈ selections →
      table.Reaches applies selections ⟨head.conditions, .field head nested⟩
  | spread {selections : List Selection} {head : SpreadSelection} {fragment : Fragment}
      {occurrence : Occurrence} :
      .spread head ∈ selections → applies head.possible →
      table.get? head.fragment = some fragment →
      table.Reaches applies fragment.selections.selections occurrence →
      table.Reaches applies selections (occurrence.under (conditionsOf head.directives))
  | inline {selections nested : List Selection} {head : InlineSelection} {parent : String}
      {possible : PossibleTypes} {occurrence : Occurrence} :
      .inline head ⟨parent, possible, nested⟩ ∈ selections → applies possible →
      table.Reaches applies nested occurrence →
      table.Reaches applies selections (occurrence.under (conditionsOf head.directives))

/-- Some way leads from selections to a spread of a fragment. Everything on it applies to an
object type. -/
inductive Spreads (table : FragmentTable) (type : ObjectId) : List Selection → FragmentId → Prop
  | here {selections : List Selection} {head : SpreadSelection} :
      .spread head ∈ selections → type ∈ head.possible →
      table.Spreads type selections head.fragment
  | spread {selections : List Selection} {head : SpreadSelection} {fragment : Fragment}
      {id : FragmentId} :
      .spread head ∈ selections → type ∈ head.possible →
      table.get? head.fragment = some fragment →
      table.Spreads type fragment.selections.selections id → table.Spreads type selections id
  | inline {selections nested : List Selection} {head : InlineSelection} {parent : String}
      {possible : PossibleTypes} {id : FragmentId} :
      .inline head ⟨parent, possible, nested⟩ ∈ selections → type ∈ possible →
      table.Spreads type nested id → table.Spreads type selections id

/-- Some way leads to a field of a response key for an object type, and no condition on it can
exclude the field. -/
def Assures (table : FragmentTable) (type : ObjectId) (selections : List Selection)
    (key : String) : Prop :=
  ∃ occurrence, table.Reaches (type ∈ ·) selections occurrence ∧ occurrence.HasKey key ∧
    occurrence.conditions = []

variable {table : FragmentTable} {applies applies' : PossibleTypes → Prop}
  {selections selections' first second : List Selection} {occurrence : Occurrence}
  {type : ObjectId} {id : FragmentId}

theorem Reaches.mono (hsub : ∀ selection ∈ selections, selection ∈ selections')
    (h : table.Reaches applies selections occurrence) :
    table.Reaches applies selections' occurrence := by
  cases h with
  | field hmem => exact .field (hsub _ hmem)
  | spread hmem happlies hget hinner => exact .spread (hsub _ hmem) happlies hget hinner
  | inline hmem happlies hinner => exact .inline (hsub _ hmem) happlies hinner

theorem Reaches.of_imp (himp : ∀ possible, applies possible → applies' possible)
    (h : table.Reaches applies selections occurrence) :
    table.Reaches applies' selections occurrence := by
  induction h with
  | field hmem => exact .field hmem
  | spread hmem happlies hget _ ih => exact .spread hmem (himp _ happlies) hget ih
  | inline hmem happlies _ ih => exact .inline hmem (himp _ happlies) ih

/-- A way begins at one of the selections. -/
theorem Reaches.exists_mem (h : table.Reaches applies selections occurrence) :
    ∃ selection ∈ selections, table.Reaches applies [selection] occurrence := by
  cases h with
  | field hmem => exact ⟨_, hmem, .field List.mem_cons_self⟩
  | spread hmem happlies hget hinner =>
      exact ⟨_, hmem, .spread List.mem_cons_self happlies hget hinner⟩
  | inline hmem happlies hinner => exact ⟨_, hmem, .inline List.mem_cons_self happlies hinner⟩

/-- The conditions of an occurrence can be written as directives and read again. -/
theorem Reaches.conditionsOf_map_directive (h : table.Reaches applies selections occurrence) :
    conditionsOf (occurrence.conditions.map Condition.directive) = occurrence.conditions := by
  have happend : ∀ {directives : List AppliedDirective} {conditions : List Condition},
      conditionsOf (conditions.map Condition.directive) = conditions →
      conditionsOf ((conditionsOf directives ++ conditions).map Condition.directive) =
        conditionsOf directives ++ conditions := by
    intro directives conditions hconditions
    rw [List.map_append, conditionsOf_append, QueryShape.conditionsOf_map_directive, hconditions]
  induction h with
  | field _ => exact QueryShape.conditionsOf_map_directive _
  | spread _ _ _ _ ih => exact happend ih
  | inline _ _ _ ih => exact happend ih

/-- A way through selections under conditions meets the conditions first. -/
theorem Reaches.of_wrapInConditions {conditions : List Condition} {set : SelectionSet}
    (h : table.Reaches applies (wrapInConditions conditions set) occurrence)
    (hstated : conditionsOf (conditions.map Condition.directive) = conditions) :
    ∃ inner, table.Reaches applies set.selections inner ∧ inner.under conditions = occurrence := by
  cases conditions with
  | nil => exact ⟨occurrence, h, by rw [Occurrence.under_nil, id]⟩
  | cons first rest =>
      rw [wrapInConditions] at h
      cases h with
      | field hmem => exact nomatch List.mem_singleton.mp hmem
      | spread hmem => exact nomatch List.mem_singleton.mp hmem
      | inline hmem _ hinner =>
          cases List.mem_singleton.mp hmem
          exact ⟨_, hinner, by rw [hstated]⟩

theorem Spreads.mono (hsub : ∀ selection ∈ selections, selection ∈ selections')
    (h : table.Spreads type selections id) : table.Spreads type selections' id := by
  cases h with
  | here hmem htype => exact .here (hsub _ hmem) htype
  | spread hmem htype hget hinner => exact .spread (hsub _ hmem) htype hget hinner
  | inline hmem htype hinner => exact .inline (hsub _ hmem) htype hinner

@[simp] theorem not_spreads_nil : ¬ table.Spreads type [] id := by
  rintro (⟨hmem, -⟩ | ⟨hmem, -, -, -⟩ | ⟨hmem, -, -⟩) <;> exact List.not_mem_nil hmem

theorem spreads_append : table.Spreads type (first ++ second) id ↔
    table.Spreads type first id ∨ table.Spreads type second id := by
  constructor
  · intro h
    cases h with
    | here hmem htype =>
        exact (List.mem_append.mp hmem).imp (.here · htype) (.here · htype)
    | spread hmem htype hget hinner =>
        exact (List.mem_append.mp hmem).imp (.spread · htype hget hinner)
          (.spread · htype hget hinner)
    | inline hmem htype hinner =>
        exact (List.mem_append.mp hmem).imp (.inline · htype hinner) (.inline · htype hinner)
  · rintro (h | h)
    · exact h.mono fun _ hmem => List.mem_append_left _ hmem
    · exact h.mono fun _ hmem => List.mem_append_right _ hmem

/-- What a spread fragment spreads is spread as well. -/
theorem Spreads.trans {fragment : Fragment} {inner : FragmentId}
    (h : table.Spreads type selections id) (hget : table.get? id = some fragment)
    (hinner : table.Spreads type fragment.selections.selections inner) :
    table.Spreads type selections inner := by
  induction h with
  | here hmem htype => exact .spread hmem htype hget hinner
  | spread hmem htype hget' _ ih => exact .spread hmem htype hget' (ih hget)
  | inline hmem htype _ ih => exact .inline hmem htype (ih hget)

/-! ## The first selection -/

theorem reaches_cons {first : Selection} {rest : List Selection} :
    table.Reaches applies (first :: rest) occurrence ↔
      table.Reaches applies [first] occurrence ∨ table.Reaches applies rest occurrence := by
  constructor
  · intro h
    obtain ⟨selection, hmem, hreaches⟩ := h.exists_mem
    rcases List.mem_cons.mp hmem with rfl | hrest
    · exact Or.inl hreaches
    · exact Or.inr (hreaches.mono fun other hother => List.mem_singleton.mp hother ▸ hrest)
  · rintro (h | h)
    · exact h.mono fun other hother => List.mem_singleton.mp hother ▸ List.mem_cons_self
    · exact h.mono fun other hother => List.mem_cons_of_mem _ hother

theorem reaches_field {head : FieldSelection} {nested : Option SelectionSet} :
    table.Reaches applies [.field head nested] occurrence ↔
      occurrence = ⟨head.conditions, .field head nested⟩ := by
  constructor
  · intro h
    cases h with
    | field hmem =>
        cases List.mem_singleton.mp hmem
        rfl
    | spread hmem => exact nomatch List.mem_singleton.mp hmem
    | inline hmem => exact nomatch List.mem_singleton.mp hmem
  · rintro rfl
    exact .field List.mem_cons_self

theorem Reaches.applies_of_spread {head : SpreadSelection}
    (h : table.Reaches applies [.spread head] occurrence) : applies head.possible := by
  cases h with
  | field hmem => exact nomatch List.mem_singleton.mp hmem
  | spread hmem happlies =>
      cases List.mem_singleton.mp hmem
      exact happlies
  | inline hmem => exact nomatch List.mem_singleton.mp hmem

theorem reaches_spread {head : SpreadSelection} {fragment : Fragment}
    (hget : table.get? head.fragment = some fragment) :
    table.Reaches applies [.spread head] occurrence ↔ applies head.possible ∧ ∃ inner,
      table.Reaches applies fragment.selections.selections inner ∧
        inner.under (conditionsOf head.directives) = occurrence := by
  constructor
  · intro h
    cases h with
    | field hmem => exact nomatch List.mem_singleton.mp hmem
    | spread hmem happlies hget' hinner =>
        cases List.mem_singleton.mp hmem
        obtain rfl := Option.some.inj (hget.symm.trans hget')
        exact ⟨happlies, _, hinner, rfl⟩
    | inline hmem => exact nomatch List.mem_singleton.mp hmem
  · rintro ⟨happlies, inner, hinner, rfl⟩
    exact .spread List.mem_cons_self happlies hget hinner

theorem reaches_inline {head : InlineSelection} {parent : String} {possible : PossibleTypes}
    {nested : List Selection} :
    table.Reaches applies [.inline head ⟨parent, possible, nested⟩] occurrence ↔
      applies possible ∧ ∃ inner, table.Reaches applies nested inner ∧
        inner.under (conditionsOf head.directives) = occurrence := by
  constructor
  · intro h
    cases h with
    | field hmem => exact nomatch List.mem_singleton.mp hmem
    | spread hmem => exact nomatch List.mem_singleton.mp hmem
    | inline hmem happlies hinner =>
        cases List.mem_singleton.mp hmem
        exact ⟨happlies, _, hinner, rfl⟩
  · rintro ⟨happlies, inner, hinner, rfl⟩
    exact .inline List.mem_cons_self happlies hinner

section Assures

variable {key : String} {rest nested : List Selection}

theorem not_assures_nil : ¬ table.Assures type [] key := by
  rintro ⟨occurrence, hreaches, -⟩
  obtain ⟨selection, hmem, -⟩ := hreaches.exists_mem
  exact List.not_mem_nil hmem

theorem assures_cons {first : Selection} : table.Assures type (first :: rest) key ↔
    table.Assures type [first] key ∨ table.Assures type rest key := by
  have hcons : ∀ occurrence, table.Reaches (type ∈ ·) (first :: rest) occurrence ↔
      table.Reaches (type ∈ ·) [first] occurrence ∨ table.Reaches (type ∈ ·) rest occurrence :=
    fun _ => reaches_cons
  simp only [Assures, hcons, or_and_right, exists_or]

theorem assures_field {head : FieldSelection} {set : Option SelectionSet} :
    table.Assures type [.field head set] key ↔
      head.conditions = [] ∧ head.responseKey = key := by
  simp only [Assures, reaches_field, exists_eq_left]
  constructor
  · rintro ⟨⟨head', set', hitem, hkey⟩, hnone⟩
    cases hitem
    exact ⟨hnone, hkey⟩
  · rintro ⟨hnone, hkey⟩
    exact ⟨⟨head, set, rfl, hkey⟩, hnone⟩

/-- Nothing can exclude a key behind some conditions if there are none, and nothing can on the
rest of the way. -/
theorem exists_under_iff {applies : Prop} {reaches : Occurrence → Prop}
    {conditions : List Condition} :
    (∃ occurrence : Occurrence,
      (applies ∧ ∃ inner, reaches inner ∧ inner.under conditions = occurrence) ∧
        occurrence.HasKey key ∧ occurrence.conditions = []) ↔
      applies ∧ conditions = [] ∧ ∃ inner, reaches inner ∧ inner.HasKey key ∧
        inner.conditions = [] := by
  constructor
  · rintro ⟨_, ⟨happlies, inner, hreaches, rfl⟩, hkey, hnone⟩
    rw [Occurrence.conditions_under, List.append_eq_nil_iff] at hnone
    exact ⟨happlies, hnone.1, inner, hreaches, hkey, hnone.2⟩
  · rintro ⟨happlies, rfl, inner, hreaches, hkey, hnone⟩
    exact ⟨_, ⟨happlies, inner, hreaches, rfl⟩, hkey, hnone⟩

theorem assures_spread {head : SpreadSelection} {fragment : Fragment}
    (hget : table.get? head.fragment = some fragment) :
    table.Assures type [.spread head] key ↔ type ∈ head.possible ∧
      conditionsOf head.directives = [] ∧
        table.Assures type fragment.selections.selections key := by
  simp only [Assures, reaches_spread hget, exists_under_iff]

theorem assures_inline {head : InlineSelection} {parent : String} {possible : PossibleTypes} :
    table.Assures type [.inline head ⟨parent, possible, nested⟩] key ↔ type ∈ possible ∧
      conditionsOf head.directives = [] ∧ table.Assures type nested key := by
  simp only [Assures, reaches_inline, exists_under_iff]

end Assures

/-! ## Ways for an object type -/

/-- A way for an object type leads to one of its occurrences. -/
theorem Reaches.mem_occurrencesIn (h : table.Ordered)
    (hreaches : table.Reaches (type ∈ ·) selections occurrence) :
    occurrence ∈ Selection.occurrencesIn (table.fragmentOccurrences .standard type) .standard
      type selections := by
  -- Each step of a way puts its conditions in front of those of the occurrence.
  induction hreaches with
  | field hmem => exact Selection.mem_occurrencesIn.mpr ⟨_, hmem, List.mem_singleton_self _⟩
  | @spread selections head fragment occurrence hmem htype hget _ ih =>
      refine Selection.mem_occurrencesIn.mpr ⟨_, hmem, ?_⟩
      have hopened : opened (table.fragmentOccurrences .standard type) .standard head.fragment =
          table.occurrences .standard type fragment.selections :=
        fragmentOccurrences_eq h hget
      rw [Selection.occurrences, if_pos htype, hopened]
      exact List.mem_map_of_mem ih
  | inline hmem htype _ ih =>
      refine Selection.mem_occurrencesIn.mpr ⟨_, hmem, ?_⟩
      rw [Selection.occurrences, if_pos htype]
      exact List.mem_map_of_mem ih

mutual

/-- An occurrence of a selection lies at the end of a way, if that holds for fragments. -/
theorem reaches_of_mem_occurrences (selection : Selection)
    (hexpand : ∀ id ∈ selection.spreads, ∀ fragment, table.get? id = some fragment →
      ∀ occurrence ∈ table.fragmentOccurrences .standard type id,
        table.Reaches (type ∈ ·) fragment.selections.selections occurrence)
    (hresolves : ∀ id ∈ selection.spreads, id < table.size) {occurrence : Occurrence}
    (hmem : occurrence ∈
      selection.occurrences (table.fragmentOccurrences .standard type) .standard type) :
    table.Reaches (type ∈ ·) [selection] occurrence := by
  cases selection with
  | field head nested =>
      obtain rfl := List.mem_singleton.mp hmem
      exact .field List.mem_cons_self
  | spread head =>
      rw [Selection.occurrences] at hmem
      split at hmem
      · next htype =>
          obtain ⟨inner, hinner, rfl⟩ := List.mem_map.mp hmem
          have hspread : head.fragment ∈ (Selection.spread head).spreads :=
            List.mem_singleton_self _
          obtain ⟨fragment, hget⟩ := get?_eq_some_of_lt (hresolves _ hspread)
          exact .spread List.mem_cons_self htype hget (hexpand _ hspread fragment hget inner hinner)
      · exact absurd hmem List.not_mem_nil
  | inline head set =>
      obtain ⟨parent, narrowed, selections⟩ := set
      rw [Selection.occurrences] at hmem
      split at hmem
      · next htype =>
          obtain ⟨inner, hinner, rfl⟩ := List.mem_map.mp hmem
          exact .inline List.mem_cons_self htype
            (reaches_of_mem_occurrencesIn selections hexpand hresolves hinner)
      · exact absurd hmem List.not_mem_nil

theorem reaches_of_mem_occurrencesIn (selections : List Selection)
    (hexpand : ∀ id ∈ Selection.spreadsIn selections, ∀ fragment, table.get? id = some fragment →
      ∀ occurrence ∈ table.fragmentOccurrences .standard type id,
        table.Reaches (type ∈ ·) fragment.selections.selections occurrence)
    (hresolves : ∀ id ∈ Selection.spreadsIn selections, id < table.size) {occurrence : Occurrence}
    (hmem : occurrence ∈ Selection.occurrencesIn (table.fragmentOccurrences .standard type)
      .standard type selections) : table.Reaches (type ∈ ·) selections occurrence := by
  cases selections with
  | nil => exact absurd hmem List.not_mem_nil
  | cons selection rest =>
      rw [Selection.occurrencesIn] at hmem
      rcases List.mem_append.mp hmem with hfirst | hrest
      · refine Reaches.mono (fun other hother => ?_) (reaches_of_mem_occurrences selection
          (fun id hid => hexpand id (List.mem_append_left _ hid))
          (fun id hid => hresolves id (List.mem_append_left _ hid)) hfirst)
        rw [List.mem_singleton.mp hother]
        exact List.mem_cons_self
      · exact Reaches.mono (fun other hother => List.mem_cons_of_mem _ hother)
          (reaches_of_mem_occurrencesIn rest
            (fun id hid => hexpand id (List.mem_append_right _ hid))
            (fun id hid => hresolves id (List.mem_append_right _ hid)) hrest)

end

/-- In an ordered table every occurrence of a fragment lies at the end of a way. -/
theorem reaches_of_mem_fragmentOccurrences (h : table.Ordered) (id : FragmentId) :
    ∀ fragment, table.get? id = some fragment →
      ∀ occurrence ∈ table.fragmentOccurrences .standard type id,
        table.Reaches (type ∈ ·) fragment.selections.selections occurrence := by
  -- What a fragment spreads comes before it, so ways through it are known by induction.
  induction id using Nat.strongRecOn with
  | ind id ih =>
      intro fragment hget occurrence hmem
      rw [fragmentOccurrences_eq h hget] at hmem
      refine reaches_of_mem_occurrencesIn _ (fun spread hspread => ?_) (h.resolves hget) hmem
      exact ih spread (h id fragment hget spread hspread)

/-- The ways for an object type lead to what is selected for it. -/
theorem reaches_iff (h : table.Ordered) {set : SelectionSet} (hset : table.Resolves set) :
    table.Reaches (type ∈ ·) set.selections occurrence ↔
      occurrence ∈ table.occurrences .standard type set := by
  constructor
  · intro hreaches
    exact hreaches.mem_occurrencesIn h
  · intro hmem
    exact reaches_of_mem_occurrencesIn set.selections
      (fun id _ => reaches_of_mem_fragmentOccurrences h id) hset hmem

theorem assures_iff (h : table.Ordered) {set : SelectionSet} (hset : table.Resolves set)
    {key : String} : table.Assures type set.selections key ↔
      ∃ occurrence ∈ table.occurrences .standard type set,
        occurrence.HasKey key ∧ occurrence.conditions = [] := by
  simp only [Assures, reaches_iff h hset]

end FragmentTable

end QueryShape
