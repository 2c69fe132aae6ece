import QueryShape.Proofs.TypeCase.Merging

/-!
# Settled selections

In a variant nothing is left to narrow: every selection applies to all of its object types.
The only inline fragments are those that carry conditions, and while fragments are looked
through there are no spreads. Splitting, changing and merging variants keeps this.

## What this module delivers

- `Selection.Settled`, `Selection.SettledIn`: nothing below narrows some object types.
- `Variant.Settled`: the same for the object types of the variant itself.
- `Variant.narrows_settled`, `Variant.Settled.absorb`: what keeps it.
-/

set_option autoImplicit false

namespace QueryShape

mutual

/-- A selection that applies to all of some object types. An inline fragment has no type
condition, and its directives are conditions that may exclude something. -/
def Selection.Settled (options : TypeCaseOptions) (types : PossibleTypes) : Selection → Prop
  | .field _ _ => True
  | .spread _ => options.mergeSpreads = false
  | .inline head ⟨_, narrowed, selections⟩ =>
      head.typeCondition = none ∧ head.directives ≠ [] ∧
        (conditionsOf head.directives).map Condition.directive = head.directives ∧
        (∀ type ∈ types, type ∈ narrowed) ∧ Selection.SettledIn options types selections

/-- Selections that apply to all of some object types. -/
def Selection.SettledIn (options : TypeCaseOptions) (types : PossibleTypes) :
    List Selection → Prop
  | [] => True
  | selection :: rest =>
      selection.Settled options types ∧ Selection.SettledIn options types rest

end

namespace Selection

variable {options : TypeCaseOptions} {types narrowed : PossibleTypes}

mutual

theorem Settled.mono (hsub : ∀ type ∈ narrowed, type ∈ types) (selection : Selection)
    (h : selection.Settled options types) : selection.Settled options narrowed := by
  cases selection with
  | field head nested => exact trivial
  | spread head => exact h
  | inline head nested =>
      obtain ⟨parent, inner, selections⟩ := nested
      obtain ⟨hcondition, hne, hdirectives, hinner, hselections⟩ := h
      exact ⟨hcondition, hne, hdirectives, fun type htype => hinner type (hsub type htype),
        SettledIn.mono hsub selections hselections⟩

theorem SettledIn.mono (hsub : ∀ type ∈ narrowed, type ∈ types) (selections : List Selection)
    (h : SettledIn options types selections) : SettledIn options narrowed selections := by
  cases selections with
  | nil => exact trivial
  | cons selection rest =>
      exact ⟨Settled.mono hsub selection h.1, SettledIn.mono hsub rest h.2⟩

end

theorem SettledIn.append {first second : List Selection} (h : SettledIn options types first)
    (h' : SettledIn options types second) : SettledIn options types (first ++ second) := by
  induction first with
  | nil => exact h'
  | cons selection rest ih => exact ⟨h.1, ih h.2⟩

/-- Conditions can always be put around settled selections. -/
theorem SettledIn.wrapInConditions {selections : List Selection} (parent : String)
    (directives : List AppliedDirective) (h : SettledIn options types selections) :
    SettledIn options types
      (QueryShape.wrapInConditions (conditionsOf directives) ⟨parent, types, selections⟩) := by
  simp only [QueryShape.wrapInConditions]
  split
  · exact h
  · next first rest hconditions =>
      have hne : (conditionsOf directives).map Condition.directive ≠ [] := by
        rw [hconditions]
        exact List.cons_ne_nil _ _
      refine ⟨⟨rfl, hne, ?_, fun _ => id, h⟩, trivial⟩
      rw [conditionsOf_map_directive]

end Selection

namespace Variant

/-- Everything that a variant holds applies to all of its object types. -/
def Settled (options : TypeCaseOptions) (variant : Variant) : Prop :=
  Selection.SettledIn options variant.possible variant.selections

variable {options : TypeCaseOptions} {variant other : Variant}

theorem narrows_settled (options : TypeCaseOptions) : TypeCase.Narrows (Settled options) := by
  intro variant possible h _ hsub
  exact Selection.SettledIn.mono hsub variant.selections h

theorem selections_conform (variant : Variant) (id : FragmentId) :
    (variant.conform id).selections = variant.selections := by
  rw [conform_eq]

theorem Settled.conform (h : variant.Settled options) (id : FragmentId) :
    (variant.conform id).Settled options := by
  rw [Settled, possible_conform, selections_conform]
  exact h

theorem Settled.append (h : variant.Settled options) {selections : List Selection}
    (hmore : Selection.SettledIn options variant.possible selections) :
    (variant.append selections).Settled options :=
  Selection.SettledIn.append h hmore

theorem Settled.absorb (h : variant.Settled options) (hother : other.Settled options)
    (hsub : ∀ type ∈ variant.possible, type ∈ other.possible) (directives : List AppliedDirective) :
    (variant.absorb (conditionsOf directives) other).Settled options := by
  rw [Variant.absorb, foldl_conform]
  split
  · exact h
  · -- Coming from a variant for more object types, the selections apply to fewer of them.
    have hmoved : Selection.SettledIn options variant.possible other.selections :=
      Selection.SettledIn.mono hsub other.selections hother
    exact h.append (hmoved.wrapInConditions other.parent directives)

end Variant

end QueryShape
