import QueryShape.Proofs.TypeCase.Refinement

/-!
# The exhaustive variants

The named variants of a type case and its remainder divide the possible types. For a well
formed type case this is a partition: no variant is empty, no two have a common object
type, and together they are the object types of the default variant.

## What this module delivers

- `mem_unclaimed`, `mem_exhaustive`: what the remainder and the exhaustive variants are.
- `WellFormed.inhabited_exhaustive`, `WellFormed.disjoint_exhaustive`,
  `WellFormed.covered_iff`: the three parts of the partition.
- `WellFormed.eq_restrict_of_mem_exhaustive`: an exhaustive variant says of its object types
  what the type case says of them.
- `Each`, `Each.refine`: a property of every variant, which splitting keeps.
- `HasCapacity.unionOf_exhaustive`: where all sets have one capacity, the union of the
  exhaustive variants is equal to the set of all possible types.
-/

set_option autoImplicit false

namespace QueryShape

namespace TypeCase

variable {typeCase : TypeCase} {request : PossibleTypes} {type : ObjectId}

theorem mem_unclaimed :
    type ∈ typeCase.unclaimed ↔ type ∈ typeCase.default.possible ∧ ¬ typeCase.Claims type := by
  rw [unclaimed, PossibleTypes.mem_diff, mem_unionOf]
  exact Iff.rfl

/-- An exhaustive variant is a named one, or the default variant for what no named variant
claims. -/
theorem mem_exhaustive {variant : Variant} : variant ∈ typeCase.exhaustive ↔
    variant ∈ typeCase.named ∨
      variant = typeCase.default.restrict typeCase.unclaimed ∧
        ∃ type ∈ typeCase.default.possible, ¬ typeCase.Claims type := by
  have hsome : typeCase.unclaimed.isEmpty = false ↔
      ∃ type ∈ typeCase.default.possible, ¬ typeCase.Claims type := by
    rw [PossibleTypes.isEmpty_eq_false_iff]
    exact exists_congr fun type => mem_unclaimed
  rw [exhaustive, List.mem_append, remainder?, ← hsome]
  cases typeCase.unclaimed.isEmpty with
  | true => simp
  | false => simp

namespace WellFormed

theorem inhabited_exhaustive (h : typeCase.WellFormed) {variant : Variant}
    (hvariant : variant ∈ typeCase.exhaustive) : ∃ type, type ∈ variant.possible := by
  rcases mem_exhaustive.mp hvariant with hnamed | ⟨rfl, type, htype, hclaims⟩
  · exact h.inhabited variant hnamed
  · exact ⟨type, mem_unclaimed.mpr ⟨htype, hclaims⟩⟩

theorem disjoint_exhaustive (h : typeCase.WellFormed) :
    typeCase.exhaustive.Pairwise fun left right => ∀ type ∈ left.possible,
      type ∉ right.possible := by
  refine List.pairwise_append.mpr ⟨h.disjoint, ?_, ?_⟩
  · rw [remainder?]
    split
    · exact List.Pairwise.nil
    · exact List.pairwise_singleton _ _
  · -- The remainder has nothing but unclaimed types.
    intro left hleft right hright type htype hunclaimed
    rw [remainder?] at hright
    split at hright
    · exact absurd hright List.not_mem_nil
    · obtain rfl := List.mem_singleton.mp hright
      exact (mem_unclaimed.mp hunclaimed).2 ⟨left, hleft, htype⟩

/-- The object types of the exhaustive variants are those of the default variant. -/
theorem covered_iff (h : typeCase.WellFormed) :
    (∃ variant ∈ typeCase.exhaustive, type ∈ variant.possible) ↔
      type ∈ typeCase.default.possible := by
  constructor
  · rintro ⟨variant, hvariant, htype⟩
    rcases mem_exhaustive.mp hvariant with hnamed | ⟨rfl, -⟩
    · exact h.inside variant hnamed type htype
    · exact (mem_unclaimed.mp htype).1
  · intro htype
    by_cases hclaims : typeCase.Claims type
    · obtain ⟨variant, hnamed, hin⟩ := hclaims
      exact ⟨variant, mem_exhaustive.mpr (Or.inl hnamed), hin⟩
    · exact ⟨_, mem_exhaustive.mpr (Or.inr ⟨rfl, type, htype, hclaims⟩),
        mem_unclaimed.mpr ⟨htype, hclaims⟩⟩

/-- An exhaustive variant is the variant that holds each of its object types, for some of
the object types of that one. -/
theorem eq_restrict_of_mem_exhaustive (h : typeCase.WellFormed) {variant : Variant}
    (hvariant : variant ∈ typeCase.exhaustive) (htype : type ∈ variant.possible) :
    variant = (typeCase.variantFor type).restrict variant.possible := by
  rcases mem_exhaustive.mp hvariant with hnamed | ⟨rfl, -⟩
  · rw [h.variantFor_eq hnamed htype, Variant.restrict_possible]
  · rw [variantFor_of_not_claims (mem_unclaimed.mp htype).2]
    rfl

end WellFormed

/-! ## Properties of every variant -/

/-- A property of the default variant and of all named ones. -/
structure Each (P : Variant → Prop) (typeCase : TypeCase) : Prop where
  default : P typeCase.default
  named : ∀ variant ∈ typeCase.named, P variant

/-- A property that a variant passes on to its parts. -/
def Narrows (P : Variant → Prop) : Prop :=
  ∀ variant possible, P variant → possible.capacity = variant.possible.capacity →
    (∀ type ∈ possible, type ∈ variant.possible) → P (variant.restrict possible)

theorem Each.exhaustive {P : Variant → Prop} (h : typeCase.Each P) (hP : Narrows P)
    {variant : Variant} (hvariant : variant ∈ typeCase.exhaustive) : P variant := by
  rcases mem_exhaustive.mp hvariant with hnamed | ⟨rfl, -⟩
  · exact h.named variant hnamed
  · exact hP _ _ h.default rfl fun type htype => (mem_unclaimed.mp htype).1

theorem capacity_leftOver (request : PossibleTypes) (named : List Variant) :
    (leftOver request named).capacity = request.capacity := by
  have key : ∀ rest : PossibleTypes,
      (named.foldl (fun rest variant => rest \ (variant.possible ∩ request)) rest).capacity =
        rest.capacity := by
    induction named with
    | nil => exact fun _ => rfl
    | cons variant named ih => exact fun rest => (ih _).trans (PossibleTypes.capacity_diff)
  exact key request

/-- Splitting off parts keeps a property of every variant. -/
theorem Each.refine {P : Variant → Prop} (h : typeCase.Each P) (hP : Narrows P)
    (hrequest : request.capacity = typeCase.default.possible.capacity) :
    (typeCase.refine request).1.Each P := by
  refine ⟨by rw [default_refine]; exact h.default, ?_⟩
  intro part hpart
  rw [refine_fst] at hpart
  rcases List.mem_append.mp hpart with hsplit | hfresh
  · obtain ⟨variant, hmem, rfl | ⟨-, rfl⟩⟩ := mem_split.mp hsplit
    · rw [outside]
      split
      · exact hP _ _ (h.named variant hmem) rfl fun type htype =>
          (PossibleTypes.mem_diff.mp htype).1
      · exact h.named variant hmem
    · exact hP _ _ (h.named variant hmem) rfl fun type htype =>
        (PossibleTypes.mem_inter.mp htype).1
  · simp only [fresh] at hfresh
    split at hfresh
    · exact absurd hfresh List.not_mem_nil
    · rw [List.mem_singleton.mp hfresh]
      refine hP _ _ h.default ?_ fun type htype => (mem_leftOver_named.mp htype).1.2
      rw [capacity_leftOver, PossibleTypes.capacity_inter, hrequest]

/-! ## Capacities -/

/-- All sets of object types have one capacity. -/
abbrev HasCapacity (capacity : Nat) : TypeCase → Prop :=
  Each fun variant => variant.possible.capacity = capacity

theorem narrows_capacity (capacity : Nat) :
    Narrows fun variant => variant.possible.capacity = capacity :=
  fun _ _ hvariant hpossible _ => hpossible.trans hvariant

theorem capacity_unionOf {capacity : Nat} {variants : List Variant}
    (h : ∀ variant ∈ variants, variant.possible.capacity = capacity) :
    (unionOf capacity variants).capacity = capacity := by
  have key : ∀ all : PossibleTypes, all.capacity = capacity →
      (variants.foldl (fun all variant => all ∪ variant.possible) all).capacity = capacity := by
    induction variants with
    | nil => exact fun all hall => hall
    | cons variant variants ih =>
        intro all hall
        refine ih (fun other hother => h other (List.mem_cons_of_mem _ hother)) _ ?_
        have hmax : (all ∪ variant.possible).capacity =
            max all.capacity variant.possible.capacity := rfl
        rw [hmax, hall, h variant List.mem_cons_self, Nat.max_self]
  exact key (.empty capacity) rfl

/-- The union of the exhaustive variants is the set of all possible types. -/
theorem HasCapacity.unionOf_exhaustive
    (hc : typeCase.HasCapacity typeCase.default.possible.capacity) (h : typeCase.WellFormed) :
    unionOf typeCase.default.possible.capacity typeCase.exhaustive = typeCase.default.possible := by
  refine PossibleTypes.ext_mem (capacity_unionOf fun variant hvariant => ?_) fun type => ?_
  · exact hc.exhaustive (narrows_capacity _) hvariant
  · rw [mem_unionOf, h.covered_iff]

end TypeCase

end QueryShape
