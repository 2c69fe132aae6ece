import QueryShape.TypeCase.Partition

/-!
# Induction along partitioning

A type case starts empty, and selections are added to it one after the other, in one of five ways:
a field goes to all object types, a spread is passed over, is recorded, or is recorded and looked
through, and an inline fragment is merged. Type cases that are merged come about in the same way,
for the object types that are left. So whatever these ways keep holds of every partition.

## What this module delivers

- `TypeCase.Inductive`: a property of the selections added so far that each way to add one keeps.
- `Inductive.add`, `Inductive.addAll`, `Inductive.expansion`: the recursion.
- `Inductive.partition`: what is inductive holds of the partition of a selection set.
-/

set_option autoImplicit false

namespace QueryShape

namespace TypeCase

/-- A property of a type case, of the object types it is for and of the selections added so far,
that holds at the start and is kept by each way to add a selection. -/
structure Inductive (table : FragmentTable) (options : TypeCaseOptions)
    (Holds : PossibleTypes → List Selection → TypeCase → Prop) : Prop where
  empty : ∀ parent possible, Holds possible [] (empty parent possible)
  field : ∀ {possible before typeCase}, Holds possible before typeCase → ∀ head set,
    Holds possible (before ++ [.field head set]) (typeCase.addField possible (.field head set))
  passOver : ∀ {possible before typeCase}, Holds possible before typeCase →
    ∀ head : SpreadSelection,
      typeCase.conformsTo (possible ∩ head.possible) head.fragment = true →
      Holds possible (before ++ [.spread head]) typeCase
  keepSpread : ∀ {possible before typeCase}, Holds possible before typeCase →
    ∀ head : SpreadSelection, options.mergeSpreads = false →
      Holds possible (before ++ [.spread head])
        (typeCase.addSpread options (possible ∩ head.possible) head)
  openSpread : ∀ {possible before typeCase nested}, Holds possible before typeCase →
    ∀ (head : SpreadSelection) (fragment : Fragment), options.mergeSpreads = true →
      ¬ typeCase.conformsTo (possible ∩ head.possible) head.fragment = true →
      table.get? head.fragment = some fragment →
      Holds (possible ∩ head.possible) fragment.selections.selections nested →
      Holds possible (before ++ [.spread head])
        ((typeCase.addSpread options (possible ∩ head.possible) head).merge nested
          (conditionsOf head.directives))
  inline : ∀ {possible before typeCase narrowed inner nested}, Holds possible before typeCase →
    ∀ (head : InlineSelection) (parent : String), Holds (possible ∩ narrowed) inner nested →
      Holds possible (before ++ [.inline head ⟨parent, narrowed, inner⟩])
        (typeCase.merge nested (conditionsOf head.directives))

section Inductive

variable {table : FragmentTable} {options : TypeCaseOptions} {expand : Expansion}
  {Holds : PossibleTypes → List Selection → TypeCase → Prop}

/-- What an expansion yields has a property, for the selections of the fragment. -/
def Expansion.Yields (table : FragmentTable)
    (Holds : PossibleTypes → List Selection → TypeCase → Prop) (expand : Expansion) : Prop :=
  ∀ id types nested, expand id types = .ok nested → ∃ fragment, table.get? id = some fragment ∧
    Holds types fragment.selections.selections nested

mutual

/-- One more selection. -/
theorem Inductive.add (h : Inductive table options Holds)
    (hexpand : Expansion.Yields table Holds expand) (selection : Selection)
    {possible : PossibleTypes} {before : List Selection} {typeCase result : TypeCase}
    (hbefore : Holds possible before typeCase)
    (hadd : TypeCase.add expand options possible typeCase selection = .ok result) :
    Holds possible (before ++ [selection]) result := by
  cases selection with
  | field head set =>
      rw [TypeCase.add] at hadd
      cases hadd
      exact h.field hbefore head set
  | spread head =>
      rw [TypeCase.add] at hadd
      by_cases hconforms : typeCase.conformsTo (possible ∩ head.possible) head.fragment = true
      · rw [if_pos hconforms] at hadd
        cases hadd
        exact h.passOver hbefore head hconforms
      · rw [if_neg hconforms] at hadd
        by_cases hmerge : options.mergeSpreads = true
        · simp only [if_pos hmerge] at hadd
          obtain ⟨nested, hnested, hadd⟩ := bind_eq_ok.mp hadd
          cases hadd
          obtain ⟨fragment, hget, hn⟩ := hexpand _ _ _ hnested
          exact h.openSpread hbefore head fragment hmerge hconforms hget hn
        · simp only [if_neg hmerge] at hadd
          cases hadd
          exact h.keepSpread hbefore head (eq_false_of_ne_true hmerge)
  | inline head set =>
      obtain ⟨parent, narrowed, selections⟩ := set
      rw [TypeCase.add] at hadd
      obtain ⟨nested, hnested, hadd⟩ := bind_eq_ok.mp hadd
      cases hadd
      -- The nested type case starts empty, for the object types that are left.
      have hn := h.addAll hexpand selections (h.empty parent (possible ∩ narrowed)) hnested
      exact h.inline hbefore head parent hn

/-- Some more selections, one after the other. -/
theorem Inductive.addAll (h : Inductive table options Holds)
    (hexpand : Expansion.Yields table Holds expand) (selections : List Selection)
    {possible : PossibleTypes} {before : List Selection} {typeCase result : TypeCase}
    (hbefore : Holds possible before typeCase)
    (hadd : TypeCase.addAll expand options possible typeCase selections = .ok result) :
    Holds possible (before ++ selections) result := by
  cases selections with
  | nil =>
      rw [TypeCase.addAll] at hadd
      cases hadd
      rwa [List.append_nil]
  | cons selection rest =>
      rw [TypeCase.addAll] at hadd
      obtain ⟨middle, hfirst, hadd⟩ := bind_eq_ok.mp hadd
      have hrest := h.addAll hexpand rest (h.add hexpand selection hbefore hfirst) hadd
      rwa [List.append_assoc, List.singleton_append] at hrest

end

/-- The type case of a fragment has the property, for every depth at which there is one. -/
theorem Inductive.expansion (h : Inductive table options Holds) (depth : Nat) :
    Expansion.Yields table Holds (table.expansion options depth) := by
  induction depth with
  | zero => exact fun id types nested hnone => nomatch hnone
  | succ depth ih =>
      intro id types nested hnested
      rw [FragmentTable.expansion] at hnested
      obtain ⟨fragment, hresolve, hnested⟩ := bind_eq_ok.mp hnested
      exact ⟨fragment, FragmentTable.resolve_eq_ok.mp hresolve,
        h.addAll ih fragment.selections.selections (h.empty fragment.typeCondition types) hnested⟩

/-- What is inductive holds of the partition of a selection set. -/
theorem Inductive.partition (h : Inductive table options Holds) {set : SelectionSet}
    {typeCase : TypeCase} (hpartition : table.partition options set = .ok typeCase) :
    Holds set.possible set.selections typeCase := by
  have hall := h.addAll (h.expansion table.size) set.selections (h.empty set.parent set.possible)
    hpartition
  rwa [List.nil_append] at hall

end Inductive

end TypeCase

end QueryShape
