import QueryShape.Proofs.Ways

/-!
# What is met on a walk

A walk goes through selections in order. It enters the inline fragments that pass a test and, if
fragments are looked through, the bodies of the spread fragments that do; what is nested below
fields is on another level. It meets fields and spreads, repeated ones included, each under the
conditions on the way to it. For one object type the test is whether it is among those that
something applies to, for a selection set whether all of its object types are.

Ways lead to one occurrence at a time; a walk lists all of them, in order. It is a relation and
needs no bound on the depth of spreads.

## What this module delivers

- `FragmentTable.Meets`: what is met on a walk.
- `Meets.unique`, `Meets.append`: there is one walk, and lists are walked one after the other.
- `Meets.reaches`, `Meets.mem_of_reaches`: the fields that are met are what ways lead to.
- `spreadsMet`: the fragments whose spreads are met.
- `FragmentTable.Explored`, `Meets.explored`: the body of every spread that is met is part of the
  walk, so that nothing new is met where the fragment is spread again.
-/

set_option autoImplicit false

namespace QueryShape

/-- The fragment that an occurrence spreads, if it is a spread. -/
def Occurrence.spread? (occurrence : Occurrence) : Option FragmentId :=
  match occurrence.item with
  | .field _ _ => none
  | .spread id => some id

/-- The fragments spread among some occurrences, in order. -/
def spreadsMet (met : List Occurrence) : List FragmentId :=
  met.filterMap Occurrence.spread?

theorem spreadsMet_append (first second : List Occurrence) :
    spreadsMet (first ++ second) = spreadsMet first ++ spreadsMet second :=
  List.filterMap_append

@[simp] theorem spreadsMet_map_under (conditions : List Condition) (met : List Occurrence) :
    spreadsMet (met.map (Occurrence.under conditions)) = spreadsMet met := by
  rw [spreadsMet, List.filterMap_map]
  rfl

namespace FragmentTable

/-- What is met on a walk through selections. A spread that is looked through is met before what is
in its body. -/
inductive Meets (table : FragmentTable) (options : TypeCaseOptions)
    (applies : PossibleTypes → Prop) : List Selection → List Occurrence → Prop
  | nil : Meets table options applies [] []
  | field {rest : List Selection} {met : List Occurrence} (head : FieldSelection)
      (nested : Option SelectionSet) :
      Meets table options applies rest met →
      Meets table options applies (.field head nested :: rest)
        (⟨head.conditions, .field head nested⟩ :: met)
  | passSpread {rest : List Selection} {met : List Occurrence} {head : SpreadSelection} :
      ¬ applies head.possible → Meets table options applies rest met →
      Meets table options applies (.spread head :: rest) met
  | keepSpread {rest : List Selection} {met : List Occurrence} {head : SpreadSelection} :
      applies head.possible → options.mergeSpreads = false →
      Meets table options applies rest met →
      Meets table options applies (.spread head :: rest)
        (⟨conditionsOf head.directives, .spread head.fragment⟩ :: met)
  | openSpread {rest : List Selection} {inner met : List Occurrence} {head : SpreadSelection}
      {fragment : Fragment} :
      applies head.possible → options.mergeSpreads = true →
      table.get? head.fragment = some fragment →
      Meets table options applies fragment.selections.selections inner →
      Meets table options applies rest met →
      Meets table options applies (.spread head :: rest)
        (⟨conditionsOf head.directives, .spread head.fragment⟩ ::
          (inner.map (Occurrence.under (conditionsOf head.directives)) ++ met))
  | passInline {rest : List Selection} {met : List Occurrence} {head : InlineSelection}
      {set : SelectionSet} :
      ¬ applies set.possible → Meets table options applies rest met →
      Meets table options applies (.inline head set :: rest) met
  | openInline {rest : List Selection} {inner met : List Occurrence} {head : InlineSelection}
      {set : SelectionSet} :
      applies set.possible → Meets table options applies set.selections inner →
      Meets table options applies rest met →
      Meets table options applies (.inline head set :: rest)
        (inner.map (Occurrence.under (conditionsOf head.directives)) ++ met)

variable {table : FragmentTable} {options : TypeCaseOptions} {applies : PossibleTypes → Prop}
  {first second selections : List Selection} {met met' more : List Occurrence}

namespace Meets

/-- There is at most one walk. -/
theorem unique (h : table.Meets options applies selections met)
    (h' : table.Meets options applies selections met') : met' = met := by
  induction h generalizing met' with
  | nil =>
      cases h'
      rfl
  | field head nested _ ih =>
      cases h' with
      | field _ _ hrest => rw [ih hrest]
  | passSpread hout _ ih =>
      cases h' with
      | passSpread _ hrest => exact ih hrest
      | keepSpread hin => exact absurd hin hout
      | openSpread hin => exact absurd hin hout
  | keepSpread hin hkept _ ih =>
      cases h' with
      | passSpread hout => exact absurd hin hout
      | keepSpread _ _ hrest => rw [ih hrest]
      | openSpread _ hopened => exact absurd (hkept.symm.trans hopened) Bool.false_ne_true
  | openSpread hin hopened hget _ _ ihinner ih =>
      cases h' with
      | passSpread hout => exact absurd hin hout
      | keepSpread _ hkept => exact absurd (hkept.symm.trans hopened) Bool.false_ne_true
      | openSpread _ _ hget' hinner hrest =>
          obtain rfl := Option.some.inj (hget.symm.trans hget')
          rw [ihinner hinner, ih hrest]
  | passInline hout _ ih =>
      cases h' with
      | passInline _ hrest => exact ih hrest
      | openInline hin => exact absurd hin hout
  | openInline hin _ _ ihinner ih =>
      cases h' with
      | passInline hout => exact absurd hin hout
      | openInline _ hinner hrest => rw [ihinner hinner, ih hrest]

theorem append (h : table.Meets options applies first met)
    (h' : table.Meets options applies second more) :
    table.Meets options applies (first ++ second) (met ++ more) := by
  induction h with
  | nil => exact h'
  | field head nested _ ih => exact .field head nested ih
  | passSpread hout _ ih => exact .passSpread hout ih
  | keepSpread hin hkept _ ih => exact .keepSpread hin hkept ih
  | openSpread hin hopened hget hinner _ _ ih =>
      rw [List.cons_append, List.cons_append, List.append_assoc]
      exact .openSpread hin hopened hget hinner ih
  | passInline hout _ ih => exact .passInline hout ih
  | openInline hin hinner _ _ ih =>
      rw [List.append_assoc]
      exact .openInline hin hinner ih

/-- Every field that is met lies at the end of a way. -/
theorem reaches (h : table.Meets options applies selections met) {occurrence : Occurrence}
    (hmem : occurrence ∈ met) (hfield : occurrence.spread? = none) :
    table.Reaches applies selections occurrence := by
  induction h generalizing occurrence with
  | nil => exact absurd hmem List.not_mem_nil
  | field head nested _ ih =>
      rcases List.mem_cons.mp hmem with rfl | hrest
      · exact .field List.mem_cons_self
      · exact reaches_cons.mpr (Or.inr (ih hrest hfield))
  | passSpread _ _ ih => exact reaches_cons.mpr (Or.inr (ih hmem hfield))
  | keepSpread _ _ _ ih =>
      rcases List.mem_cons.mp hmem with rfl | hrest
      · exact nomatch hfield
      · exact reaches_cons.mpr (Or.inr (ih hrest hfield))
  | openSpread hin _ hget _ _ ihinner ih =>
      rcases List.mem_cons.mp hmem with rfl | hmem
      · exact nomatch hfield
      · rcases List.mem_append.mp hmem with hbody | hrest
        · obtain ⟨inner, hinner, rfl⟩ := List.mem_map.mp hbody
          exact .spread List.mem_cons_self hin hget (ihinner hinner hfield)
        · exact reaches_cons.mpr (Or.inr (ih hrest hfield))
  | passInline _ _ ih => exact reaches_cons.mpr (Or.inr (ih hmem hfield))
  | @openInline _ _ _ _ set hin _ _ ihinner ih =>
      rcases List.mem_append.mp hmem with hbody | hrest
      · obtain ⟨inner, hinner, rfl⟩ := List.mem_map.mp hbody
        obtain ⟨parent, possible, nested⟩ := set
        exact .inline List.mem_cons_self hin (ihinner hinner hfield)
      · exact reaches_cons.mpr (Or.inr (ih hrest hfield))

/-- Where fragments are looked through, every way ends at something that is met. -/
theorem mem_of_reaches (h : table.Meets options applies selections met)
    (hopened : options.mergeSpreads = true) {occurrence : Occurrence}
    (hreaches : table.Reaches applies selections occurrence) : occurrence ∈ met := by
  induction h generalizing occurrence with
  | nil =>
      obtain ⟨selection, hmem, -⟩ := hreaches.exists_mem
      exact absurd hmem List.not_mem_nil
  | field head nested _ ih =>
      rcases reaches_cons.mp hreaches with hhere | hrest
      · rw [reaches_field.mp hhere]
        exact List.mem_cons_self
      · exact List.mem_cons_of_mem _ (ih hrest)
  | passSpread hout _ ih =>
      rcases reaches_cons.mp hreaches with hhere | hrest
      · exact absurd hhere.applies_of_spread hout
      · exact ih hrest
  | keepSpread _ hkept => exact absurd (hkept.symm.trans hopened) Bool.false_ne_true
  | openSpread hin _ hget _ _ ihinner ih =>
      rcases reaches_cons.mp hreaches with hhere | hrest
      · obtain ⟨-, inner, hinner, rfl⟩ := (reaches_spread hget).mp hhere
        exact List.mem_cons_of_mem _
          (List.mem_append_left _ (List.mem_map_of_mem (ihinner hinner)))
      · exact List.mem_cons_of_mem _ (List.mem_append_right _ (ih hrest))
  | @passInline _ _ _ set hout _ ih =>
      rcases reaches_cons.mp hreaches with hhere | hrest
      · obtain ⟨parent, possible, nested⟩ := set
        exact absurd (reaches_inline.mp hhere).1 hout
      · exact ih hrest
  | @openInline _ _ _ _ set hin _ _ ihinner ih =>
      rcases reaches_cons.mp hreaches with hhere | hrest
      · obtain ⟨parent, possible, nested⟩ := set
        obtain ⟨-, inner, hinner, rfl⟩ := reaches_inline.mp hhere
        exact List.mem_append_left _ (List.mem_map_of_mem (ihinner hinner))
      · exact List.mem_append_right _ (ih hrest)

end Meets

/-! ## Spreads that are met -/

/-- There is a walk through the body of a fragment, and it meets the spreads of some fragments
only. -/
def Explored (table : FragmentTable) (options : TypeCaseOptions) (applies : PossibleTypes → Prop)
    (id : FragmentId) (ids : List FragmentId) : Prop :=
  ∃ fragment inner, table.get? id = some fragment ∧
    table.Meets options applies fragment.selections.selections inner ∧
    ∀ other ∈ spreadsMet inner, other ∈ ids

theorem Explored.mono {id : FragmentId} {ids ids' : List FragmentId}
    (h : table.Explored options applies id ids) (hsub : ∀ other ∈ ids, other ∈ ids') :
    table.Explored options applies id ids' := by
  obtain ⟨fragment, inner, hget, hinner, hmet⟩ := h
  exact ⟨fragment, inner, hget, hinner, fun other hother => hsub other (hmet other hother)⟩

theorem spreadsMet_openSpread (head : SpreadSelection) (inner met : List Occurrence) :
    spreadsMet (⟨conditionsOf head.directives, .spread head.fragment⟩ ::
        (inner.map (Occurrence.under (conditionsOf head.directives)) ++ met)) =
      head.fragment :: (spreadsMet inner ++ spreadsMet met) := by
  have hcons : ∀ rest : List Occurrence,
      spreadsMet (⟨conditionsOf head.directives, .spread head.fragment⟩ :: rest) =
        head.fragment :: spreadsMet rest := fun _ => rfl
  rw [hcons, spreadsMet_append, spreadsMet_map_under]

/-- Where fragments are looked through, the body of a fragment whose spread is met is walked
through. -/
theorem Meets.explored (h : table.Meets options applies selections met)
    (hopened : options.mergeSpreads = true) {id : FragmentId} (hid : id ∈ spreadsMet met) :
    table.Explored options applies id (spreadsMet met) := by
  induction h with
  | nil => exact absurd hid List.not_mem_nil
  | field head nested _ ih => exact ih hid
  | passSpread _ _ ih => exact ih hid
  | keepSpread _ hkept => exact absurd (hkept.symm.trans hopened) Bool.false_ne_true
  | openSpread _ _ hget hinner _ ihinner ih =>
      rw [spreadsMet_openSpread] at hid ⊢
      rcases List.mem_cons.mp hid with rfl | hid
      · exact ⟨_, _, hget, hinner, fun other hother =>
          List.mem_cons_of_mem _ (List.mem_append_left _ hother)⟩
      · -- The fragment was met in the body or behind the spread.
        rcases List.mem_append.mp hid with hbody | hrest
        · exact (ihinner hbody).mono fun other hother =>
            List.mem_cons_of_mem _ (List.mem_append_left _ hother)
        · exact (ih hrest).mono fun other hother =>
            List.mem_cons_of_mem _ (List.mem_append_right _ hother)
  | passInline _ _ ih => exact ih hid
  | openInline _ _ _ ihinner ih =>
      rw [spreadsMet_append, spreadsMet_map_under] at hid ⊢
      rcases List.mem_append.mp hid with hbody | hrest
      · exact (ihinner hbody).mono fun other => List.mem_append_left _
      · exact (ih hrest).mono fun other => List.mem_append_right _

end FragmentTable

end QueryShape
