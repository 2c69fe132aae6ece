import QueryShape.Proofs.Ways

/-!
# Selection under an assignment of variables

Conditions decide, together with truth values for variables, what a selection set selects in
one execution. A response key is selected for an object type if some way leads to a field of
that key, through inline fragments and spreads that apply to the type, on which all conditions
hold.

## What this module delivers

- `Satisfied`: all conditions that directives state hold.
- `FragmentTable.Selects`: a way to a response key on which all conditions hold.
- `FragmentTable.selects_iff_reaches`, `FragmentTable.selects_iff`: such ways lead to the
  occurrences whose conditions hold.
- `FragmentTable.Assures.selects`: what nothing can exclude is selected under every assignment.
-/

set_option autoImplicit false

namespace QueryShape

/-! ## Conditions -/

/-- All conditions that directives state hold under an assignment. -/
def Satisfied (assignment : String → Bool) (directives : List AppliedDirective) : Prop :=
  ∀ directive ∈ directives, ∀ condition, Condition.ofDirective? directive = some condition →
    condition.holds assignment = true

/-- Conditions that exclude nothing hold under every assignment. -/
theorem Condition.holds_of_isAlwaysSatisfied {condition : Condition}
    (h : condition.isAlwaysSatisfied = true) (assignment : String → Bool) :
    condition.holds assignment = true := by
  obtain ⟨directive, kind, value⟩ := condition
  rw [holds]
  rw [isAlwaysSatisfied] at h
  split at h
  · next hkind hvalue =>
      obtain rfl : kind = .includeIf := hkind
      obtain rfl : value = .literal true := hvalue
      rfl
  · next hkind hvalue =>
      obtain rfl : kind = .skipIf := hkind
      obtain rfl : value = .literal false := hvalue
      rfl
  · exact absurd h (by simp)

/-- Leaving out the conditions that exclude nothing changes nothing. -/
theorem satisfied_iff {assignment : String → Bool} {directives : List AppliedDirective} :
    Satisfied assignment directives ↔
      ∀ condition ∈ conditionsOf directives, condition.holds assignment = true := by
  constructor
  · intro h condition hmem
    obtain ⟨hstated, -⟩ := List.mem_filter.mp hmem
    obtain ⟨directive, hdirective, hcondition⟩ := List.mem_filterMap.mp hstated
    exact h directive hdirective condition hcondition
  · intro h directive hdirective condition hcondition
    -- Compiling leaves out a condition only if it holds in any case.
    cases halways : condition.isAlwaysSatisfied with
    | true => exact Condition.holds_of_isAlwaysSatisfied halways assignment
    | false =>
        refine h condition (List.mem_filter.mpr ⟨?_, by rw [halways]; rfl⟩)
        exact List.mem_filterMap.mpr ⟨directive, hdirective, hcondition⟩

/-! ## Ways to a response key -/

/-- Some way leads to a field of a response key for an object type: every inline fragment and
every spread on it applies to the type, and all conditions on it hold. -/
inductive FragmentTable.Selects (table : FragmentTable) (type : ObjectId)
    (assignment : String → Bool) : List Selection → String → Prop
  | field {selections : List Selection} {head : FieldSelection} {nested : Option SelectionSet} :
      .field head nested ∈ selections → Satisfied assignment head.directives →
      table.Selects type assignment selections head.responseKey
  | spread {selections : List Selection} {head : SpreadSelection} {fragment : Fragment}
      {key : String} :
      .spread head ∈ selections → type ∈ head.possible → Satisfied assignment head.directives →
      table.get? head.fragment = some fragment →
      table.Selects type assignment fragment.selections.selections key →
      table.Selects type assignment selections key
  | inline {selections nested : List Selection} {head : InlineSelection} {parent : String}
      {possible : PossibleTypes} {key : String} :
      .inline head ⟨parent, possible, nested⟩ ∈ selections → type ∈ possible →
      Satisfied assignment head.directives → table.Selects type assignment nested key →
      table.Selects type assignment selections key

/-- An occurrence of a response key whose conditions hold. -/
def Occurrence.Shows (assignment : String → Bool) (key : String) (occurrence : Occurrence) : Prop :=
  (∃ head nested, occurrence.item = .field head nested ∧ head.responseKey = key) ∧
    ∀ condition ∈ occurrence.conditions, condition.holds assignment = true

instance (assignment : String → Bool) (key : String) (occurrence : Occurrence) :
    Decidable (occurrence.Shows assignment key) :=
  inferInstanceAs (Decidable (occurrence.HasKey key ∧
    ∀ condition ∈ occurrence.conditions, condition.holds assignment = true))

theorem Occurrence.shows_under {assignment : String → Bool} {key : String}
    {conditions : List Condition} {occurrence : Occurrence} :
    (occurrence.under conditions).Shows assignment key ↔
      (∀ condition ∈ conditions, condition.holds assignment = true) ∧
        occurrence.Shows assignment key := by
  have hconditions : (occurrence.under conditions).conditions =
      conditions ++ occurrence.conditions := rfl
  rw [Shows, Shows, item_under, hconditions, List.forall_mem_append]
  exact and_left_comm

namespace FragmentTable

variable {table : FragmentTable} {type : ObjectId} {assignment : String → Bool} {key : String}
  {selections : List Selection}

/-- A key is selected if a way leads to an occurrence of it whose conditions hold. -/
theorem selects_iff_reaches : table.Selects type assignment selections key ↔
    ∃ occurrence, table.Reaches (type ∈ ·) selections occurrence ∧
      occurrence.Shows assignment key := by
  -- Each step of a way puts its conditions in front of those of the occurrence.
  constructor
  · intro h
    induction h with
    | field hmem hsatisfied =>
        exact ⟨_, .field hmem, ⟨_, _, rfl, rfl⟩, satisfied_iff.mp hsatisfied⟩
    | spread hmem htype hsatisfied hget _ ih =>
        obtain ⟨occurrence, hreaches, hshows⟩ := ih
        exact ⟨_, .spread hmem htype hget hreaches,
          Occurrence.shows_under.mpr ⟨satisfied_iff.mp hsatisfied, hshows⟩⟩
    | inline hmem htype hsatisfied _ ih =>
        obtain ⟨occurrence, hreaches, hshows⟩ := ih
        exact ⟨_, .inline hmem htype hreaches,
          Occurrence.shows_under.mpr ⟨satisfied_iff.mp hsatisfied, hshows⟩⟩
  · rintro ⟨occurrence, hreaches, hshows⟩
    induction hreaches with
    | field hmem =>
        obtain ⟨⟨head, nested, hitem, rfl⟩, hconditions⟩ := hshows
        cases hitem
        exact .field hmem (satisfied_iff.mpr hconditions)
    | spread hmem htype hget _ ih =>
        obtain ⟨hconditions, hinner⟩ := Occurrence.shows_under.mp hshows
        exact .spread hmem htype (satisfied_iff.mpr hconditions) hget (ih hinner)
    | inline hmem htype _ ih =>
        obtain ⟨hconditions, hinner⟩ := Occurrence.shows_under.mp hshows
        exact .inline hmem htype (satisfied_iff.mpr hconditions) (ih hinner)

/-- What is selected under an assignment are the occurrences whose conditions hold. -/
theorem selects_iff (h : table.Ordered) {set : SelectionSet} (hset : table.Resolves set) :
    table.Selects type assignment set.selections key ↔
      ∃ occurrence ∈ table.occurrences .standard type set, occurrence.Shows assignment key := by
  rw [selects_iff_reaches]
  simp only [reaches_iff h hset]

/-- A key that nothing can exclude is selected under every assignment. -/
theorem Assures.selects (h : table.Assures type selections key) (assignment : String → Bool) :
    table.Selects type assignment selections key := by
  obtain ⟨occurrence, hreaches, hkey, hnone⟩ := h
  refine selects_iff_reaches.mpr ⟨occurrence, hreaches, hkey, ?_⟩
  rw [hnone]
  exact fun condition hcondition => absurd hcondition List.not_mem_nil

end FragmentTable

end QueryShape
