import Mathlib.Data.List.Forall2
import QueryShape.Proofs.TypeCase.Merging

/-!
# Type cases that resemble each other

How a type case is extended never depends on what its variants select, only on their object types,
on the fragments recorded for them, and on whether they select anything at all. Two type cases that
agree in these three resemble each other, variant by variant. They are extended in step: the same
variants are split, the same slots are asked for, the same nested variants are passed over.

## What this module delivers

- `Variant.Resembles`, `TypeCase.Resembles`: agreement up to what is selected.
- `Variant.Resembles.absorb`: conditions do not matter when a variant takes up another one.
- `Resembles.refine`: a request leads to the same slots of type cases that resemble each other.
- `Resembles.changeAll`, `Resembles.changeNamed`: changes at the slots of a request.
- `Resembles.exhaustive`: the exhaustive variants are in step as well.
- `Resembles.merge`: merging type cases that resemble each other, under whatever conditions.
- `Resembles.conformsTo_eq`: the same spreads are passed over.
-/

set_option autoImplicit false

namespace QueryShape

open List (Forall₂)

/-- Entries that are changed at the same place. -/
theorem forall₂_modify {α : Type} {related : α → α → Prop} {change change' : α → α}
    (hchange : ∀ left right, related left right → related (change left) (change' right))
    {lefts rights : List α} (h : Forall₂ related lefts rights) (index : Nat) :
    Forall₂ related (lefts.modify index change) (rights.modify index change') := by
  induction h generalizing index with
  | nil => simp
  | cons hhead hrest ih =>
      cases index with
      | zero => exact .cons (hchange _ _ hhead) hrest
      | succ index => exact .cons hhead (ih index)

/-! ## Variants -/

/-- Variants of the same object types, with the same fragments, that both select something or both
select nothing. -/
structure Variant.Resembles (left right : Variant) : Prop where
  possible : left.possible = right.possible
  fragments : left.fragments = right.fragments
  selections : left.selections = [] ↔ right.selections = []

namespace Variant.Resembles

variable {left right other other' : Variant}

theorem restrict (h : left.Resembles right) (types : PossibleTypes) :
    (left.restrict types).Resembles (right.restrict types) :=
  ⟨rfl, h.fragments, h.selections⟩

theorem conform (h : left.Resembles right) (id : FragmentId) :
    (left.conform id).Resembles (right.conform id) := by
  rw [conform_eq, conform_eq]
  exact ⟨h.possible, congrArg (addFragment · id) h.fragments, h.selections⟩

/-- Different selections may be added, if there are some in both cases. -/
theorem append (h : left.Resembles right) {selections selections' : List Selection}
    (hsome : selections ≠ []) (hsome' : selections' ≠ []) :
    (left.append selections).Resembles (right.append selections') where
  possible := h.possible
  fragments := h.fragments
  selections := by simp [Variant.append, hsome, hsome']

theorem isVoid_eq (h : left.Resembles right) : left.isVoid = right.isVoid := by
  have hselections : left.selections.isEmpty = right.selections.isEmpty := by
    rw [Bool.eq_iff_iff, List.isEmpty_iff, List.isEmpty_iff]
    exact h.selections
  rw [isVoid, isVoid, hselections, h.fragments]

/-- Conditions do not make selections disappear. -/
theorem wrapInConditions_ne_nil {conditions : List Condition} {set : SelectionSet}
    (h : set.selections ≠ []) : wrapInConditions conditions set ≠ [] := by
  cases conditions with
  | nil => exact h
  | cons first rest => exact List.cons_ne_nil _ _

/-- The content of variants that resemble each other may be taken up under different conditions. -/
theorem absorb (h : left.Resembles right) (hother : other.Resembles other')
    (conditions conditions' : List Condition) :
    (left.absorb conditions other).Resembles (right.absorb conditions' other') := by
  have hextended : ∀ {extended extended' : Variant}, extended.Resembles extended' →
      (other.fragments.foldl Variant.conform extended).Resembles
        (other'.fragments.foldl Variant.conform extended') := by
    intro extended extended' hextended
    rw [foldl_conform, foldl_conform, hother.fragments, hextended.fragments]
    exact ⟨hextended.possible, rfl, hextended.selections⟩
  apply hextended
  by_cases hnone : other.selections = []
  · rw [hnone, hother.selections.mp hnone]
    exact h
  · have hnone' : other'.selections ≠ [] := fun hnil => hnone (hother.selections.mpr hnil)
    rw [if_neg (by simpa using hnone), if_neg (by simpa using hnone')]
    exact h.append (wrapInConditions_ne_nil hnone) (wrapInConditions_ne_nil hnone')

/-! ## Splitting variants -/

variable {types : PossibleTypes}

theorem straddles_eq (h : left.Resembles right) :
    TypeCase.straddles types left = TypeCase.straddles types right := by
  rw [TypeCase.straddles, TypeCase.straddles, h.possible]

theorem outside (h : left.Resembles right) :
    (TypeCase.outside types left).Resembles (TypeCase.outside types right) := by
  rw [TypeCase.outside, TypeCase.outside, h.straddles_eq, h.possible]
  split
  · exact h.restrict _
  · exact h

theorem inside? (h : left.Resembles right) :
    Option.Rel Resembles (TypeCase.inside? types left) (TypeCase.inside? types right) := by
  rw [TypeCase.inside?, TypeCase.inside?, h.straddles_eq, h.possible]
  split
  · exact .some (h.restrict _)
  · exact .none

end Variant.Resembles

namespace TypeCase

variable {types : PossibleTypes} {named named' : List Variant}

theorem forall₂_split (types : PossibleTypes) (h : Forall₂ Variant.Resembles named named') :
    Forall₂ Variant.Resembles (split types named) (split types named') :=
  List.rel_append (List.rel_map (fun _ _ hvariant => hvariant.outside) h)
    (List.rel_filterMap (fun _ _ hvariant => hvariant.inside?) h)

/-- Slots are counted by object types only. -/
theorem slotsFrom_congr (h : Forall₂ Variant.Resembles named named') (index next : Nat) :
    slotsFrom types index next named = slotsFrom types index next named' := by
  induction h generalizing index next with
  | nil => rfl
  | cons hvariant _ ih =>
      rw [slotsFrom, slotsFrom, hvariant.possible, hvariant.straddles_eq]
      simp only [ih]

theorem leftOver_congr (h : Forall₂ Variant.Resembles named named') :
    leftOver types named = leftOver types named' := by
  apply List.rel_foldl (P := Eq) _ rfl h
  rintro rest _ rfl left right hvariant
  exact congrArg (fun possible => rest \ (possible ∩ types)) hvariant.possible

theorem unionOf_congr (h : Forall₂ Variant.Resembles named named') (capacity : Nat) :
    unionOf capacity named = unionOf capacity named' := by
  apply List.rel_foldl (P := Eq) _ rfl h
  rintro all _ rfl left right hvariant
  exact congrArg (fun possible => all ∪ possible) hvariant.possible

/-! ## Type cases -/

/-- Type cases whose variants resemble each other, position by position. -/
structure Resembles (typeCase typeCase' : TypeCase) : Prop where
  default : typeCase.default.Resembles typeCase'.default
  named : Forall₂ Variant.Resembles typeCase.named typeCase'.named

theorem resembles_empty (parent parent' : String) (possible : PossibleTypes) :
    (empty parent possible).Resembles (empty parent' possible) :=
  ⟨⟨rfl, rfl, Iff.rfl⟩, .nil⟩

namespace Resembles

variable {typeCase typeCase' nested nested' : TypeCase} {request : PossibleTypes}
  {change change' : Variant → Variant}

theorem fresh (h : typeCase.Resembles typeCase') (request : PossibleTypes) :
    Forall₂ Variant.Resembles (typeCase.fresh request) (typeCase'.fresh request) := by
  rw [TypeCase.fresh, TypeCase.fresh, h.default.possible, leftOver_congr h.named]
  split
  · exact .nil
  · exact .cons (h.default.restrict _) .nil

/-- A request leads to the same slots of type cases that resemble each other. -/
theorem refine (h : typeCase.Resembles typeCase') (request : PossibleTypes) :
    (typeCase.refine request).1.Resembles (typeCase'.refine request).1 ∧
      (typeCase.refine request).2 = (typeCase'.refine request).2 := by
  have hsplit := forall₂_split (request ∩ typeCase'.default.possible) h.named
  constructor
  · rw [refine_fst, refine_fst, h.default.possible]
    exact ⟨h.default, List.rel_append hsplit (h.fresh request)⟩
  · rw [refine_snd, refine_snd, h.default.possible, slotsFrom_congr h.named,
      h.named.length_eq, hsplit.length_eq, List.map_const', List.map_const',
      (h.fresh request).length_eq]

/-- Variants in the same slot are changed. -/
theorem updateSlot (h : typeCase.Resembles typeCase')
    (hchange : ∀ left right, left.Resembles right → (change left).Resembles (change' right))
    (slot : Slot) :
    (typeCase.updateSlot change slot).Resembles (typeCase'.updateSlot change' slot) := by
  cases slot with
  | default => exact ⟨hchange _ _ h.default, h.named⟩
  | named index => exact ⟨h.default, forall₂_modify hchange h.named index⟩

theorem update (h : typeCase.Resembles typeCase')
    (hchange : ∀ left right, left.Resembles right → (change left).Resembles (change' right))
    (slots : List Slot) :
    (typeCase.update slots change).Resembles (typeCase'.update slots change') := by
  induction slots generalizing typeCase typeCase' with
  | nil => exact h
  | cons slot slots ih => exact ih (h.updateSlot hchange slot)

/-- Variants are changed at all slots of a request. -/
theorem changeAll (h : typeCase.Resembles typeCase')
    (hchange : ∀ left right, left.Resembles right → (change left).Resembles (change' right)) :
    (typeCase.changeAll request change).Resembles (typeCase'.changeAll request change') := by
  obtain ⟨hrefined, hslots⟩ := h.refine request
  rw [TypeCase.changeAll, TypeCase.changeAll, hslots]
  exact hrefined.update hchange _

/-- Variants are changed at the named slots of a request. -/
theorem changeNamed (h : typeCase.Resembles typeCase')
    (hchange : ∀ left right, left.Resembles right → (change left).Resembles (change' right)) :
    (typeCase.changeNamed request change).Resembles (typeCase'.changeNamed request change') := by
  obtain ⟨hrefined, hslots⟩ := h.refine request
  rw [TypeCase.changeNamed, TypeCase.changeNamed, hslots]
  exact hrefined.update hchange _

/-- The exhaustive variants resemble each other: the named ones, and the remainder for the object
types that are left in both cases. -/
theorem exhaustive (h : typeCase.Resembles typeCase') :
    Forall₂ Variant.Resembles typeCase.exhaustive typeCase'.exhaustive := by
  have hunclaimed : typeCase.unclaimed = typeCase'.unclaimed := by
    rw [unclaimed, unclaimed, h.default.possible, unionOf_congr h.named]
  apply List.rel_append h.named
  rw [remainder?, remainder?, hunclaimed]
  split
  · exact .nil
  · exact .cons (h.default.restrict _) .nil

/-- Nested variants that resemble each other are passed over or taken up together. -/
theorem mergeVariant (h : typeCase.Resembles typeCase') {variant variant' : Variant}
    (hvariant : variant.Resembles variant') (conditions conditions' : List Condition) :
    (typeCase.mergeVariant conditions variant).Resembles
      (typeCase'.mergeVariant conditions' variant') := by
  by_cases hvoid : variant.isVoid = true
  · rw [mergeVariant_of_isVoid _ hvoid, mergeVariant_of_isVoid _ (hvariant.isVoid_eq ▸ hvoid)]
    exact h
  · rw [mergeVariant_of_not_isVoid _ hvoid,
      mergeVariant_of_not_isVoid _ (hvariant.isVoid_eq ▸ hvoid), hvariant.possible]
    exact h.changeNamed fun _ _ hinside => hinside.absorb hvariant conditions conditions'

/-- Type cases that resemble each other are merged in step, under whatever conditions. -/
theorem merge (h : typeCase.Resembles typeCase') (hn : nested.Resembles nested')
    (conditions conditions' : List Condition) :
    (typeCase.merge nested conditions).Resembles (typeCase'.merge nested' conditions') := by
  have hmerged : (nested.exhaustive.foldl (TypeCase.mergeVariant conditions) typeCase).Resembles
      (nested'.exhaustive.foldl (TypeCase.mergeVariant conditions') typeCase') := by
    apply List.rel_foldl _ h hn.exhaustive
    intro before before' hbefore variant variant' hvariant
    exact hbefore.mergeVariant hvariant conditions conditions'
  rw [TypeCase.merge, TypeCase.merge, hmerged.default.possible, hn.default.possible]
  split
  · exact hmerged.updateSlot (fun _ _ hbefore => hbefore.absorb hn.default _ _) .default
  · exact hmerged

/-- The same object types conform to the same fragments. -/
theorem conformsTo_eq (h : typeCase.Resembles typeCase') (types : PossibleTypes)
    (id : FragmentId) : typeCase.conformsTo types id = typeCase'.conformsTo types id := by
  have hrecorded : Forall₂ Variant.Resembles
      (typeCase.named.filter fun variant => variant.fragments.contains id)
      (typeCase'.named.filter fun variant => variant.fragments.contains id) := by
    apply List.rel_filter _ h.named
    intro variant variant' hvariant
    exact iff_of_eq (congrArg (fun ids => List.contains ids id = true) hvariant.fragments)
  rw [conformsTo, conformsTo, h.default.fragments, h.default.possible, unionOf_congr hrecorded]

end Resembles

end TypeCase

end QueryShape
