import Mathlib.Data.List.Pairwise
import QueryShape.TypeCase.Basic

/-!
# Refining a type case

A request for some object types splits named variants and may create a new one. What a
type case says about an object type is what the variant holding it says: the named variant
that contains it, or the default variant. Refinement changes the division but not what is
said about any object type.

## What this module delivers

- `TypeCase.WellFormed`: named variants are inhabited, lie properly inside the default
  variant and are pairwise disjoint.
- `TypeCase.variantFor`: the variant that holds an object type.
- `WellFormed.refine`, `variantFor_refine`: refinement keeps the division well formed and
  the content for every object type.
- `mem_slots_refine`, `nodup_slots_refine`: the slots are exactly those of the variants that
  lie inside the request.
- `named_update`: changing distinct slots is a map over the named variants.
-/

set_option autoImplicit false

namespace QueryShape

namespace Variant

@[simp] theorem possible_restrict (variant : Variant) (possible : PossibleTypes) :
    (variant.restrict possible).possible = possible := rfl

@[simp] theorem restrict_possible (variant : Variant) :
    variant.restrict variant.possible = variant := by
  obtain ⟨⟨parent, possible, selections⟩, fragments⟩ := variant
  rfl

end Variant

namespace TypeCase

/-- Named variants divide a part of the default variant. None of them spans all of it,
because a request for all object types creates no variant. -/
structure WellFormed (typeCase : TypeCase) : Prop where
  inhabited : ∀ variant ∈ typeCase.named, ∃ type, type ∈ variant.possible
  inside : ∀ variant ∈ typeCase.named, ∀ type ∈ variant.possible,
    type ∈ typeCase.default.possible
  proper : ∀ variant ∈ typeCase.named, ∃ type ∈ typeCase.default.possible,
    type ∉ variant.possible
  disjoint : typeCase.named.Pairwise fun left right => ∀ type ∈ left.possible,
    type ∉ right.possible

theorem wellFormed_empty (parent : String) (possible : PossibleTypes) :
    (empty parent possible).WellFormed :=
  ⟨fun _ h => absurd h List.not_mem_nil, fun _ h => absurd h List.not_mem_nil,
    fun _ h => absurd h List.not_mem_nil, List.Pairwise.nil⟩

/-! ## The variant that holds an object type -/

/-- The named variant that contains an object type, or the default variant. -/
def variantFor (typeCase : TypeCase) (type : ObjectId) : Variant :=
  (typeCase.named.find? (fun variant => variant.possible.contains type)).getD typeCase.default

/-- Whether a named variant contains an object type. -/
def Claims (typeCase : TypeCase) (type : ObjectId) : Prop :=
  ∃ variant ∈ typeCase.named, type ∈ variant.possible

variable {typeCase : TypeCase} {request : PossibleTypes} {type : ObjectId}

theorem variantFor_of_not_claims (h : ¬ typeCase.Claims type) :
    typeCase.variantFor type = typeCase.default := by
  have hnone : typeCase.named.find? (fun variant => variant.possible.contains type) = none :=
    List.find?_eq_none.mpr fun variant hmem hin => h ⟨variant, hmem, hin⟩
  rw [variantFor, hnone, Option.getD_none]

/-- The variant for a claimed object type is a named one that contains it. -/
theorem variantFor_mem (h : typeCase.Claims type) :
    typeCase.variantFor type ∈ typeCase.named ∧ type ∈ (typeCase.variantFor type).possible := by
  obtain ⟨variant, hmem, hin⟩ := h
  obtain ⟨found, hfound⟩ : ∃ found,
      typeCase.named.find? (fun variant => variant.possible.contains type) = some found :=
    Option.isSome_iff_exists.mp (List.find?_isSome.mpr ⟨variant, hmem, hin⟩)
  have hcontains : found.possible.contains type = true := by
    simpa using List.find?_some hfound
  rw [variantFor, hfound, Option.getD_some]
  exact ⟨List.mem_of_find?_eq_some hfound, hcontains⟩

namespace WellFormed

/-- Two named variants with a common object type are one. -/
theorem eq_of_mem (h : typeCase.WellFormed) {left right : Variant} (hleft : left ∈ typeCase.named)
    (hright : right ∈ typeCase.named) (htype : type ∈ left.possible)
    (htype' : type ∈ right.possible) : left = right := by
  by_contra hne
  have hsymm : Std.Symm fun left right : Variant => ∀ type ∈ left.possible,
      type ∉ right.possible := ⟨fun _ _ hd type hr hl => hd type hl hr⟩
  exact h.disjoint.forall hleft hright hne type htype htype'

theorem variantFor_eq (h : typeCase.WellFormed) {variant : Variant}
    (hmem : variant ∈ typeCase.named) (htype : type ∈ variant.possible) :
    typeCase.variantFor type = variant := by
  obtain ⟨hfound, hin⟩ := variantFor_mem ⟨variant, hmem, htype⟩
  exact h.eq_of_mem hfound hmem hin htype

end WellFormed

/-! ## Splitting -/

/-- A variant straddles a request if it has object types on both sides. -/
theorem straddles_iff {variant : Variant} : straddles request variant = true ↔
    (∃ type ∈ variant.possible, type ∈ request) ∧ ∃ type ∈ variant.possible, type ∉ request := by
  have houter : (∃ type ∈ variant.possible, type ∉ request) ↔
      ¬ variant.possible ∩ request = variant.possible := by
    rw [PossibleTypes.inter_eq_left_iff]
    simp only [not_forall, exists_prop]
  simp only [straddles, Bool.and_eq_true, Bool.not_eq_true', bne_iff_ne, ne_eq, houter,
    PossibleTypes.isEmpty_eq_false_iff, PossibleTypes.mem_inter]

/-- A variant that does not straddle a request lies on one side of it. -/
theorem side_of_not_straddles {variant : Variant} (h : ¬ straddles request variant = true) :
    (∀ type ∈ variant.possible, type ∈ request) ∨
      ∀ type ∈ variant.possible, type ∉ request := by
  rw [straddles_iff, not_and_or] at h
  rcases h with hnone | hall
  · exact Or.inr fun type htype hin => hnone ⟨type, htype, hin⟩
  · exact Or.inl fun type htype => by_contra fun hout => hall ⟨type, htype, hout⟩

/-- A variant on one side of a request stays as it is. -/
theorem outside_of_not_straddles {variant : Variant} (h : straddles request variant = false) :
    outside request variant = variant := by
  rw [outside, if_neg (Bool.eq_false_iff.mp h)]

theorem outside_eq_restrict (request : PossibleTypes) (variant : Variant) :
    outside request variant = variant.restrict (outside request variant).possible := by
  cases h : straddles request variant with
  | true => rw [outside, if_pos h, Variant.possible_restrict]
  | false => rw [outside_of_not_straddles h, Variant.restrict_possible]

/-- A split variant keeps the object types that are not requested. -/
theorem mem_outside_of_straddles {variant : Variant} (h : straddles request variant = true) :
    type ∈ (outside request variant).possible ↔ type ∈ variant.possible ∧ type ∉ request := by
  rw [outside, if_pos h, Variant.possible_restrict, PossibleTypes.mem_diff, PossibleTypes.mem_inter]
  constructor
  · rintro ⟨htype, hnot⟩
    exact ⟨htype, fun hin => hnot ⟨htype, hin⟩⟩
  · rintro ⟨htype, hnot⟩
    exact ⟨htype, fun hboth => hnot hboth.2⟩

theorem mem_outside {variant : Variant} (h : type ∈ (outside request variant).possible) :
    type ∈ variant.possible := by
  cases hstraddles : straddles request variant with
  | true => exact ((mem_outside_of_straddles hstraddles).mp h).1
  | false => rwa [outside_of_not_straddles hstraddles] at h

theorem inside?_of_straddles {variant : Variant} (h : straddles request variant = true) :
    inside? request variant = some (variant.restrict (variant.possible ∩ request)) := by
  rw [inside?, if_pos h]

theorem inside?_of_not_straddles {variant : Variant} (h : straddles request variant = false) :
    inside? request variant = none := by
  rw [inside?, if_neg (Bool.eq_false_iff.mp h)]

theorem inside?_eq_some {variant part : Variant} (h : inside? request variant = some part) :
    straddles request variant = true ∧ part = variant.restrict (variant.possible ∩ request) := by
  cases hstraddles : straddles request variant with
  | true =>
      rw [inside?_of_straddles hstraddles, Option.some.injEq] at h
      exact ⟨rfl, h.symm⟩
  | false =>
      rw [inside?_of_not_straddles hstraddles] at h
      exact absurd h.symm (Option.some_ne_none part)

/-- The named variants after splitting, the parts that are split off at the end. -/
def split (request : PossibleTypes) (named : List Variant) : List Variant :=
  named.map (outside request) ++ named.filterMap (inside? request)

/-- A part is what lies outside the request, or what was split off inside it. -/
theorem mem_split {named : List Variant} {part : Variant} :
    part ∈ split request named ↔ ∃ variant ∈ named, part = outside request variant ∨
      straddles request variant = true ∧
        part = variant.restrict (variant.possible ∩ request) := by
  rw [split, List.mem_append, List.mem_map, List.mem_filterMap]
  constructor
  · rintro (⟨variant, hmem, rfl⟩ | ⟨variant, hmem, hinside⟩)
    · exact ⟨variant, hmem, Or.inl rfl⟩
    · exact ⟨variant, hmem, Or.inr (inside?_eq_some hinside)⟩
  · rintro ⟨variant, hmem, rfl | ⟨hstraddles, rfl⟩⟩
    · exact Or.inl ⟨variant, hmem, rfl⟩
    · exact Or.inr ⟨variant, hmem, inside?_of_straddles hstraddles⟩

/-- Every part comes from a variant, holds something, and lies on one side of the
request. -/
theorem of_mem_split {named : List Variant} {part : Variant} (h : part ∈ split request named)
    (hinhabited : ∀ variant ∈ named, ∃ type, type ∈ variant.possible) :
    (∃ variant ∈ named, part = variant.restrict part.possible ∧
        ∀ type ∈ part.possible, type ∈ variant.possible) ∧
      (∃ type, type ∈ part.possible) ∧
      ((∀ type ∈ part.possible, type ∈ request) ∨ ∀ type ∈ part.possible, type ∉ request) := by
  obtain ⟨variant, hmem, rfl | ⟨hstraddles, rfl⟩⟩ := mem_split.mp h
  · refine ⟨⟨variant, hmem, outside_eq_restrict request variant, fun _ => mem_outside⟩, ?_⟩
    cases hstraddles : straddles request variant with
    | true =>
        obtain ⟨-, type, htype⟩ := straddles_iff.mp hstraddles
        exact ⟨⟨type, (mem_outside_of_straddles hstraddles).mpr htype⟩,
          Or.inr fun _ hin => ((mem_outside_of_straddles hstraddles).mp hin).2⟩
    | false =>
        rw [outside_of_not_straddles hstraddles]
        exact ⟨hinhabited variant hmem, side_of_not_straddles (Bool.eq_false_iff.mp hstraddles)⟩
  · obtain ⟨⟨type, htype, hin⟩, -⟩ := straddles_iff.mp hstraddles
    exact ⟨⟨variant, hmem, rfl, fun _ hboth => (PossibleTypes.mem_inter.mp hboth).1⟩,
      ⟨type, PossibleTypes.mem_inter.mpr ⟨htype, hin⟩⟩,
      Or.inl fun _ hboth => (PossibleTypes.mem_inter.mp hboth).2⟩

/-- No object type of a variant is lost. -/
theorem exists_mem_split {named : List Variant} {variant : Variant} (hmem : variant ∈ named)
    (htype : type ∈ variant.possible) :
    ∃ part ∈ split request named, type ∈ part.possible ∧
      part = variant.restrict part.possible := by
  by_cases hinner : straddles request variant = true ∧ type ∈ request
  · obtain ⟨hstraddles, hin⟩ := hinner
    refine ⟨variant.restrict (variant.possible ∩ request), ?_,
      PossibleTypes.mem_inter.mpr ⟨htype, hin⟩, rfl⟩
    exact mem_split.mpr ⟨variant, hmem, Or.inr ⟨hstraddles, rfl⟩⟩
  · refine ⟨outside request variant, mem_split.mpr ⟨variant, hmem, Or.inl rfl⟩, ?_,
      outside_eq_restrict request variant⟩
    cases hstraddles : straddles request variant with
    | true =>
        exact (mem_outside_of_straddles hstraddles).mpr
          ⟨htype, fun hin => hinner ⟨hstraddles, hin⟩⟩
    | false => rwa [outside_of_not_straddles hstraddles]

theorem pairwise_split {named : List Variant}
    (h : named.Pairwise fun left right => ∀ type ∈ left.possible, type ∉ right.possible) :
    (split request named).Pairwise fun left right => ∀ type ∈ left.possible,
      type ∉ right.possible := by
  have hsymm : Std.Symm fun left right : Variant => ∀ type ∈ left.possible,
      type ∉ right.possible := ⟨fun _ _ hd type hr hl => hd type hl hr⟩
  refine List.pairwise_append.mpr ⟨?_, ?_, ?_⟩
  · refine List.pairwise_map.mpr (h.imp ?_)
    intro left right hdisjoint type hleft hright
    exact hdisjoint type (mem_outside hleft) (mem_outside hright)
  · refine List.pairwise_filterMap.mpr (h.imp ?_)
    intro left right hdisjoint part hpart part' hpart' type htype htype'
    rw [(inside?_eq_some hpart).2] at htype
    rw [(inside?_eq_some hpart').2] at htype'
    exact hdisjoint type (PossibleTypes.mem_inter.mp htype).1 (PossibleTypes.mem_inter.mp htype').1
  · -- The two parts of one variant lie on different sides; parts of two variants inherit.
    intro outer houter inner hinner type htype htype'
    obtain ⟨left, hleft, rfl⟩ := List.mem_map.mp houter
    obtain ⟨right, hright, hpart⟩ := List.mem_filterMap.mp hinner
    obtain ⟨hstraddles, rfl⟩ := inside?_eq_some hpart
    obtain ⟨hin, hrequest⟩ := PossibleTypes.mem_inter.mp htype'
    by_cases heq : left = right
    · subst heq
      exact ((mem_outside_of_straddles hstraddles).mp htype).2 hrequest
    · exact h.forall hleft hright heq type (mem_outside htype) hin

theorem mem_leftOver {named : List Variant} :
    type ∈ leftOver request named ↔
      type ∈ request ∧ ∀ variant ∈ named, type ∉ variant.possible := by
  -- The fold takes away step by step, so the induction is on any rest it starts with.
  have key : ∀ rest : PossibleTypes,
      type ∈ named.foldl (fun rest variant => rest \ (variant.possible ∩ request)) rest ↔
        type ∈ rest ∧ ∀ variant ∈ named, ¬ (type ∈ variant.possible ∧ type ∈ request) := by
    induction named with
    | nil => simp
    | cons variant named ih =>
        intro rest
        rw [List.foldl_cons, ih, PossibleTypes.mem_diff, PossibleTypes.mem_inter,
          List.forall_mem_cons, and_assoc]
  rw [leftOver, key]
  constructor
  · rintro ⟨hin, hnone⟩
    exact ⟨hin, fun variant hmem htype => hnone variant hmem ⟨htype, hin⟩⟩
  · rintro ⟨hin, hnone⟩
    exact ⟨hin, fun variant hmem hboth => hnone variant hmem hboth.1⟩

theorem mem_unionOf {capacity : Nat} {variants : List Variant} :
    type ∈ unionOf capacity variants ↔ ∃ variant ∈ variants, type ∈ variant.possible := by
  have key : ∀ all : PossibleTypes,
      type ∈ variants.foldl (fun all variant => all ∪ variant.possible) all ↔
        type ∈ all ∨ ∃ variant ∈ variants, type ∈ variant.possible := by
    induction variants with
    | nil => simp
    | cons variant variants ih =>
        intro all
        rw [List.foldl_cons, ih, PossibleTypes.mem_union, or_assoc]
        simp only [List.mem_cons, exists_eq_or_imp]
  rw [unionOf, key]
  simp only [PossibleTypes.not_mem_empty, false_or]

/-! ## Slots of the parts -/

theorem default_not_mem_slotsFrom {named : List Variant} (index next : Nat) :
    Slot.default ∉ slotsFrom request index next named := by
  induction named generalizing index next with
  | nil => exact List.not_mem_nil
  | cons variant named ih =>
      rw [slotsFrom]
      split
      · exact ih (index + 1) next
      · split
        · intro h
          exact (List.mem_cons.mp h).elim Slot.noConfusion (ih (index + 1) (next + 1))
        · intro h
          exact (List.mem_cons.mp h).elim Slot.noConfusion (ih (index + 1) next)

/-- The numbers of the slots: a variant inside the request keeps its place, and the parts
split off come one after the other. -/
theorem mem_slotsFrom {slot index next : Nat} {named : List Variant} :
    Slot.named slot ∈ slotsFrom request index next named ↔
      (∃ place variant, named[place]? = some variant ∧ slot = index + place ∧
        (variant.possible ∩ request).isEmpty = false ∧ straddles request variant = false) ∨
      ∃ place, place < (named.filterMap (inside? request)).length ∧ slot = next + place := by
  induction named generalizing index next with
  | nil => simp [slotsFrom]
  | cons variant named ih =>
      -- The place in the longer list is zero or one more than in the shorter one.
      have hplaces : (∃ place found, (variant :: named)[place]? = some found ∧
            slot = index + place ∧ (found.possible ∩ request).isEmpty = false ∧
              straddles request found = false) ↔
          (slot = index ∧ (variant.possible ∩ request).isEmpty = false ∧
            straddles request variant = false) ∨
          ∃ place found, named[place]? = some found ∧ slot = index + 1 + place ∧
            (found.possible ∩ request).isEmpty = false ∧ straddles request found = false := by
        constructor
        · rintro ⟨place, found, hfound, hslot, hin⟩
          cases place with
          | zero =>
              rw [List.getElem?_cons_zero, Option.some.injEq] at hfound
              exact Or.inl ⟨hslot, hfound ▸ hin⟩
          | succ place => exact Or.inr ⟨place, found, hfound, by omega, hin⟩
        · rintro (⟨hslot, hin⟩ | ⟨place, found, hfound, hslot, hin⟩)
          · exact ⟨0, variant, rfl, hslot, hin⟩
          · exact ⟨place + 1, found, hfound, by omega, hin⟩
      rw [hplaces]
      cases hempty : (variant.possible ∩ request).isEmpty with
      | true =>
          have hstraddles : straddles request variant = false := by simp [straddles, hempty]
          rw [slotsFrom, if_pos hempty, ih,
            List.filterMap_cons_none (inside?_of_not_straddles hstraddles)]
          simp
      | false =>
          cases hstraddles : straddles request variant with
          | true =>
              -- The part split off takes the next free number.
              rw [slotsFrom, if_neg (by simp [hempty]), if_pos hstraddles, List.mem_cons, ih,
                List.filterMap_cons_some (inside?_of_straddles hstraddles), List.length_cons]
              simp only [Slot.named.injEq, Bool.true_eq_false, and_false, false_or]
              constructor
              · rintro (hslot | hplace | ⟨place, hlt, hslot⟩)
                · exact Or.inr ⟨0, Nat.succ_pos _, hslot⟩
                · exact Or.inl hplace
                · exact Or.inr ⟨place + 1, by omega, by omega⟩
              · rintro (hplace | ⟨place, hlt, hslot⟩)
                · exact Or.inr (Or.inl hplace)
                · cases place with
                  | zero => exact Or.inl hslot
                  | succ place => exact Or.inr (Or.inr ⟨place, by omega, by omega⟩)
          | false =>
              rw [slotsFrom, if_neg (by simp [hempty]), if_neg (by simp [hstraddles]),
                List.mem_cons, ih, List.filterMap_cons_none (inside?_of_not_straddles hstraddles)]
              simp only [Slot.named.injEq, and_true, or_assoc]

theorem nodup_slotsFrom {index next : Nat} {named : List Variant}
    (h : index + named.length ≤ next) : (slotsFrom request index next named).Nodup := by
  induction named generalizing index next with
  | nil => exact List.nodup_nil
  | cons variant named ih =>
      rw [List.length_cons] at h
      rw [slotsFrom]
      -- A number that is taken now is below those of the places after it and of the parts.
      split
      · exact ih (by omega)
      · split
        · refine List.nodup_cons.mpr ⟨fun hmem => ?_, ih (by omega)⟩
          rcases mem_slotsFrom.mp hmem with ⟨place, found, hfound, hslot, -⟩ | ⟨place, -, hslot⟩
          · have hlt : place < named.length := (List.getElem?_eq_some_iff.mp hfound).1
            omega
          · omega
        · refine List.nodup_cons.mpr ⟨fun hmem => ?_, ih (by omega)⟩
          rcases mem_slotsFrom.mp hmem with ⟨place, -, -, hslot, -⟩ | ⟨place, -, hslot⟩
          · omega
          · omega

/-- After splitting, a slot is listed exactly if its variant lies inside the request. -/
theorem mem_slots_split {slot : Nat} {named : List Variant}
    (hinhabited : ∀ variant ∈ named, ∃ type, type ∈ variant.possible) :
    Slot.named slot ∈ slotsFrom request 0 named.length named ↔
      ∃ part, (split request named)[slot]? = some part ∧ ∀ type ∈ part.possible, type ∈ request := by
  rw [mem_slotsFrom, split]
  -- The slot is the place of a variant or, behind them, of a part that was split off.
  rcases Nat.lt_or_ge slot named.length with hlt | hge
  · rw [List.getElem?_append_left (by rwa [List.length_map]), List.getElem?_map,
      List.getElem?_eq_getElem hlt]
    have hmem : named[slot] ∈ named := List.getElem_mem hlt
    obtain ⟨type, htype⟩ := hinhabited _ hmem
    constructor
    · rintro (⟨place, variant, hvariant, hslot, hmeets, hstraddles⟩ | ⟨place, -, hslot⟩)
      · obtain rfl : slot = place := by omega
        rw [List.getElem?_eq_getElem hlt, Option.some.injEq] at hvariant
        subst hvariant
        refine ⟨named[slot], ?_, ?_⟩
        · rw [Option.map_some, outside_of_not_straddles hstraddles]
        · have hnot : ¬ straddles request named[slot] = true := Bool.eq_false_iff.mp hstraddles
          rcases side_of_not_straddles hnot with hin | hout
          · exact hin
          · obtain ⟨common, hcommon⟩ := PossibleTypes.isEmpty_eq_false_iff.mp hmeets
            obtain ⟨hcommon, hcommon'⟩ := PossibleTypes.mem_inter.mp hcommon
            exact absurd hcommon' (hout common hcommon)
      · omega
    · rintro ⟨part, hpart, hin⟩
      rw [Option.map_some, Option.some.injEq] at hpart
      subst hpart
      have hstraddles : straddles request named[slot] = false := by
        apply Bool.eq_false_iff.mpr
        intro hstraddles
        obtain ⟨-, outer, houter, hout⟩ := straddles_iff.mp hstraddles
        exact hout (hin outer ((mem_outside_of_straddles hstraddles).mpr ⟨houter, hout⟩))
      rw [outside_of_not_straddles hstraddles] at hin
      refine Or.inl ⟨slot, named[slot], List.getElem?_eq_getElem hlt, by omega, ?_, hstraddles⟩
      exact PossibleTypes.isEmpty_eq_false_iff.mpr
        ⟨type, PossibleTypes.mem_inter.mpr ⟨htype, hin type htype⟩⟩
  · rw [List.getElem?_append_right (by rwa [List.length_map]), List.length_map]
    constructor
    · rintro (⟨place, variant, hvariant, hslot, -⟩ | ⟨place, hplace, hslot⟩)
      · have hlt : place < named.length := (List.getElem?_eq_some_iff.mp hvariant).1
        omega
      · obtain rfl : place = slot - named.length := by omega
        refine ⟨_, List.getElem?_eq_getElem hplace, ?_⟩
        obtain ⟨variant, -, hvariant⟩ := List.mem_filterMap.mp (List.getElem_mem hplace)
        rw [(inside?_eq_some hvariant).2]
        intro type htype
        exact (PossibleTypes.mem_inter.mp htype).2
    · rintro ⟨part, hpart, -⟩
      exact Or.inr ⟨slot - named.length, (List.getElem?_eq_some_iff.mp hpart).1, by omega⟩

/-! ## Refinement -/

/-- The variant that a request creates: the default variant for the object types of the
request that no named variant claims. A request for all object types creates none. -/
def fresh (typeCase : TypeCase) (request : PossibleTypes) : List Variant :=
  let types := request ∩ typeCase.default.possible
  let rest := leftOver types typeCase.named
  if typeCase.default.possible.subset types || rest.isEmpty then []
  else [typeCase.default.restrict rest]

theorem refine_fst (typeCase : TypeCase) (request : PossibleTypes) :
    (typeCase.refine request).1 =
      ⟨typeCase.default, split (request ∩ typeCase.default.possible) typeCase.named ++
        typeCase.fresh request⟩ := by
  simp only [refine, fresh]
  cases typeCase.default.possible.subset (request ∩ typeCase.default.possible) with
  | true => simp [split]
  | false =>
      cases (leftOver (request ∩ typeCase.default.possible) typeCase.named).isEmpty with
      | true => simp [split]
      | false => simp [split]

theorem refine_snd (typeCase : TypeCase) (request : PossibleTypes) :
    (typeCase.refine request).2 =
      (if typeCase.default.possible.subset (request ∩ typeCase.default.possible) then [.default]
        else []) ++
      (slotsFrom (request ∩ typeCase.default.possible) 0 typeCase.named.length typeCase.named ++
        (typeCase.fresh request).map fun _ =>
          .named (split (request ∩ typeCase.default.possible) typeCase.named).length) := by
  simp only [refine, fresh]
  cases typeCase.default.possible.subset (request ∩ typeCase.default.possible) with
  | true => simp
  | false =>
      cases (leftOver (request ∩ typeCase.default.possible) typeCase.named).isEmpty with
      | true => simp
      | false => simp [split]

@[simp] theorem default_refine (typeCase : TypeCase) (request : PossibleTypes) :
    (typeCase.refine request).1.default = typeCase.default := by
  rw [refine_fst]

theorem subset_request_iff : typeCase.default.possible.subset
      (request ∩ typeCase.default.possible) = true ↔
    ∀ type ∈ typeCase.default.possible, type ∈ request := by
  rw [PossibleTypes.subset_iff_mem]
  apply forall₂_congr
  intro type htype
  rw [PossibleTypes.mem_inter, and_iff_left htype]

theorem mem_leftOver_named : type ∈ leftOver (request ∩ typeCase.default.possible) typeCase.named ↔
    (type ∈ request ∧ type ∈ typeCase.default.possible) ∧ ¬ typeCase.Claims type := by
  rw [mem_leftOver, PossibleTypes.mem_inter]
  simp only [Claims, not_exists, not_and]

theorem mem_fresh {variant : Variant} (h : variant ∈ typeCase.fresh request) :
    typeCase.fresh request = [variant] ∧ variant = typeCase.default.restrict variant.possible ∧
      (∀ type, type ∈ variant.possible ↔
        (type ∈ request ∧ type ∈ typeCase.default.possible) ∧ ¬ typeCase.Claims type) ∧
      (∃ type, type ∈ variant.possible) ∧
      ∃ type ∈ typeCase.default.possible, type ∉ request := by
  simp only [fresh] at h ⊢
  split at h
  · exact absurd h List.not_mem_nil
  · next hcond =>
      obtain rfl := List.mem_singleton.mp h
      rw [if_neg hcond]
      rw [Bool.or_eq_true, not_or, subset_request_iff, Bool.not_eq_true] at hcond
      obtain ⟨hspans, hrest⟩ := hcond
      refine ⟨rfl, rfl, fun type => mem_leftOver_named,
        PossibleTypes.isEmpty_eq_false_iff.mp hrest, ?_⟩
      simpa only [not_forall, exists_prop] using hspans

/-- There is at most one new variant. -/
theorem pairwise_fresh (typeCase : TypeCase) (request : PossibleTypes)
    (related : Variant → Variant → Prop) : (typeCase.fresh request).Pairwise related := by
  simp only [fresh]
  split
  · exact List.Pairwise.nil
  · exact List.pairwise_singleton related _

theorem exists_mem_fresh (hin : type ∈ request) (htype : type ∈ typeCase.default.possible)
    (hclaims : ¬ typeCase.Claims type)
    (hmissing : ∃ missing ∈ typeCase.default.possible, missing ∉ request) :
    ∃ variant ∈ typeCase.fresh request, type ∈ variant.possible := by
  have hrest := mem_leftOver_named.mpr ⟨⟨hin, htype⟩, hclaims⟩
  have hcond : ¬ (typeCase.default.possible.subset (request ∩ typeCase.default.possible) ||
      (leftOver (request ∩ typeCase.default.possible) typeCase.named).isEmpty) = true := by
    rw [Bool.or_eq_true, not_or, subset_request_iff, Bool.not_eq_true]
    obtain ⟨missing, hmem, hout⟩ := hmissing
    exact ⟨fun hall => hout (hall missing hmem),
      PossibleTypes.isEmpty_eq_false_iff.mpr ⟨type, hrest⟩⟩
  refine ⟨typeCase.default.restrict _, ?_, hrest⟩
  simp only [fresh]
  rw [if_neg hcond]
  exact List.mem_singleton_self _

/-- Where the named variants of a refined type case come from: from a named variant, or for
object types that were not claimed from the default variant. -/
theorem of_mem_refine (h : typeCase.WellFormed) {part : Variant}
    (hpart : part ∈ (typeCase.refine request).1.named) :
    (∃ variant, (variant ∈ typeCase.named ∨
          variant = typeCase.default ∧ ∀ type ∈ part.possible, ¬ typeCase.Claims type) ∧
        part = variant.restrict part.possible ∧ ∀ type ∈ part.possible, type ∈ variant.possible) ∧
      (∃ type, type ∈ part.possible) ∧
      ((∀ type ∈ part.possible, type ∈ request) ∨ ∀ type ∈ part.possible, type ∉ request) := by
  rw [refine_fst] at hpart
  rcases List.mem_append.mp hpart with hsplit | hfresh
  · obtain ⟨⟨variant, hmem, hrestrict, hsub⟩, hinhabited, hside⟩ :=
      of_mem_split hsplit h.inhabited
    refine ⟨⟨variant, Or.inl hmem, hrestrict, hsub⟩, hinhabited, ?_⟩
    refine hside.imp (fun hin type htype => (PossibleTypes.mem_inter.mp (hin type htype)).1) ?_
    intro hout type htype hrequest
    have hdefault := h.inside variant hmem type (hsub type htype)
    exact hout type htype (PossibleTypes.mem_inter.mpr ⟨hrequest, hdefault⟩)
  · obtain ⟨-, hrestrict, hmem, hinhabited, -⟩ := mem_fresh hfresh
    exact ⟨⟨typeCase.default, Or.inr ⟨rfl, fun type htype => ((hmem type).mp htype).2⟩, hrestrict,
        fun type htype => ((hmem type).mp htype).1.2⟩,
      hinhabited, Or.inl fun type htype => ((hmem type).mp htype).1.1⟩

/-- Refinement keeps the division well formed. -/
theorem WellFormed.refine (h : typeCase.WellFormed) (request : PossibleTypes) :
    (typeCase.refine request).1.WellFormed := by
  refine ⟨fun part hpart => (of_mem_refine h hpart).2.1, ?_, ?_, ?_⟩
  · -- Inside: a part lies in the variant that it comes from.
    intro part hpart type htype
    rw [default_refine]
    obtain ⟨⟨variant, horigin, -, hsub⟩, -⟩ := of_mem_refine h hpart
    rcases horigin with hmem | ⟨rfl, -⟩
    · exact h.inside variant hmem type (hsub type htype)
    · exact hsub type htype
  · -- Proper: a request for all object types creates no variant.
    intro part hpart
    rw [default_refine]
    rw [refine_fst] at hpart
    rcases List.mem_append.mp hpart with hsplit | hfresh
    · obtain ⟨⟨variant, hmem, -, hsub⟩, -⟩ := of_mem_split hsplit h.inhabited
      obtain ⟨missing, hmissing, hout⟩ := h.proper variant hmem
      exact ⟨missing, hmissing, fun hin => hout (hsub missing hin)⟩
    · obtain ⟨-, -, hmem, -, missing, hmissing, hout⟩ := mem_fresh hfresh
      exact ⟨missing, hmissing, fun hin => hout ((hmem missing).mp hin).1.1⟩
  · rw [refine_fst]
    refine List.pairwise_append.mpr
      ⟨pairwise_split h.disjoint, typeCase.pairwise_fresh request _, ?_⟩
    -- The new variant has unclaimed types only, and the parts come from named variants.
    intro part hsplit variant hfresh type htype hunclaimed
    obtain ⟨⟨origin, hmem, -, hsub⟩, -⟩ := of_mem_split hsplit h.inhabited
    obtain ⟨-, -, hclaims, -⟩ := mem_fresh hfresh
    exact ((hclaims type).mp hunclaimed).2 ⟨origin, hmem, hsub type htype⟩

theorem Claims.refine (h : typeCase.Claims type) : (typeCase.refine request).1.Claims type := by
  obtain ⟨variant, hmem, htype⟩ := h
  obtain ⟨part, hpart, hin, -⟩ := exists_mem_split hmem htype
  rw [refine_fst]
  exact ⟨part, List.mem_append_left _ hpart, hin⟩

/-- A request for some but not all object types claims them. -/
theorem claims_refine (hin : type ∈ request) (htype : type ∈ typeCase.default.possible)
    (hmissing : ∃ missing ∈ typeCase.default.possible, missing ∉ request) :
    (typeCase.refine request).1.Claims type := by
  by_cases hclaims : typeCase.Claims type
  · exact hclaims.refine
  · obtain ⟨variant, hfresh, hmem⟩ := exists_mem_fresh hin htype hclaims hmissing
    rw [refine_fst]
    exact ⟨variant, List.mem_append_right _ hfresh, hmem⟩

/-- What is said about an object type does not change. -/
theorem variantFor_refine (h : typeCase.WellFormed) (request : PossibleTypes) (type : ObjectId) :
    (typeCase.refine request).1.variantFor type =
      (typeCase.variantFor type).restrict
        ((typeCase.refine request).1.variantFor type).possible := by
  by_cases hclaims : (typeCase.refine request).1.Claims type
  · -- The part that holds the type comes from the variant that held it before.
    obtain ⟨hpart, hin⟩ := variantFor_mem hclaims
    obtain ⟨⟨variant, horigin, hrestrict, hsub⟩, -⟩ := of_mem_refine h hpart
    have hvariant : typeCase.variantFor type = variant := by
      rcases horigin with hmem | ⟨rfl, hnone⟩
      · exact h.variantFor_eq hmem (hsub type hin)
      · exact variantFor_of_not_claims (hnone type hin)
    rw [hvariant]
    exact hrestrict
  · have hnone : ¬ typeCase.Claims type := fun hclaimed => hclaims hclaimed.refine
    rw [variantFor_of_not_claims hclaims, variantFor_of_not_claims hnone, default_refine,
      Variant.restrict_possible]

/-! ## Slots of a refinement -/

theorem default_mem_slots_refine : .default ∈ (typeCase.refine request).2 ↔
    ∀ type ∈ typeCase.default.possible, type ∈ request := by
  have hfresh : Slot.default ∉ (typeCase.fresh request).map fun _ =>
      Slot.named (split (request ∩ typeCase.default.possible) typeCase.named).length := by
    simp
  rw [refine_snd, List.mem_append, List.mem_append, ← subset_request_iff]
  simp only [default_not_mem_slotsFrom, hfresh, or_false]
  split <;> simp [*]

/-- The slots are those of the named variants that lie inside the request. -/
theorem mem_slots_refine (h : typeCase.WellFormed) {slot : Nat} :
    .named slot ∈ (typeCase.refine request).2 ↔
      ∃ part, (typeCase.refine request).1.named[slot]? = some part ∧
        ∀ type ∈ part.possible, type ∈ request := by
  have hdefault : Slot.named slot ∉ (if typeCase.default.possible.subset
      (request ∩ typeCase.default.possible) then [Slot.default] else []) := by
    split <;> simp
  rw [refine_snd, refine_fst, List.mem_append, List.mem_append, mem_slots_split h.inhabited]
  simp only [hdefault, false_or]
  generalize hsplit : split (request ∩ typeCase.default.possible) typeCase.named = parts
  rcases Nat.lt_or_ge slot parts.length with hlt | hge
  · -- Parts of named variants lie inside the default variant.
    have hside : ∀ part, parts[slot]? = some part → ((∀ type ∈ part.possible,
        type ∈ request ∩ typeCase.default.possible) ↔ ∀ type ∈ part.possible, type ∈ request) := by
      intro part hpart
      have hmem : part ∈ split (request ∩ typeCase.default.possible) typeCase.named :=
        hsplit ▸ List.mem_of_getElem? hpart
      obtain ⟨⟨variant, hvariant, -, hsub⟩, -⟩ := of_mem_split hmem h.inhabited
      apply forall₂_congr
      intro type htype
      rw [PossibleTypes.mem_inter, and_iff_left (h.inside variant hvariant type (hsub type htype))]
    have hfresh : Slot.named slot ∉ (typeCase.fresh request).map fun _ =>
        Slot.named parts.length := by
      intro hmem
      obtain ⟨_, -, heq⟩ := List.mem_map.mp hmem
      have := Slot.named.inj heq
      omega
    rw [List.getElem?_append_left hlt]
    simp only [hfresh, or_false]
    exact exists_congr fun part => and_congr_right fun hpart => hside part hpart
  · rw [List.getElem?_append_right hge, List.getElem?_eq_none hge]
    simp only [reduceCtorEq, false_and, exists_false, false_or]
    constructor
    · intro hmem
      obtain ⟨variant, hfresh, heq⟩ := List.mem_map.mp hmem
      obtain ⟨hsingle, -, hclaims, -⟩ := mem_fresh hfresh
      obtain rfl := Slot.named.inj heq
      rw [hsingle, Nat.sub_self]
      exact ⟨variant, rfl, fun type htype => ((hclaims type).mp htype).1.1⟩
    · rintro ⟨part, hpart, -⟩
      have hfresh : part ∈ typeCase.fresh request := List.mem_of_getElem? hpart
      rw [(mem_fresh hfresh).1] at hpart ⊢
      have hlt := (List.getElem?_eq_some_iff.mp hpart).1
      rw [List.length_singleton] at hlt
      obtain rfl : slot = parts.length := by omega
      exact List.mem_map_of_mem (List.mem_singleton_self part)

theorem nodup_slots_refine (h : typeCase.WellFormed) : (typeCase.refine request).2.Nodup := by
  rw [refine_snd]
  have hfrom : (slotsFrom (request ∩ typeCase.default.possible) 0 typeCase.named.length
      typeCase.named).Nodup := nodup_slotsFrom (by omega)
  have htail : (slotsFrom (request ∩ typeCase.default.possible) 0 typeCase.named.length
      typeCase.named ++ (typeCase.fresh request).map fun _ => Slot.named
        (split (request ∩ typeCase.default.possible) typeCase.named).length).Nodup := by
    refine List.nodup_append.mpr
      ⟨hfrom, List.pairwise_map.mpr (typeCase.pairwise_fresh request _), ?_⟩
    -- The slot of the new variant lies behind all parts.
    intro slot hslot slot' hslot' heq
    obtain ⟨_, -, rfl⟩ := List.mem_map.mp hslot'
    subst heq
    obtain ⟨part, hpart, -⟩ := (mem_slots_split h.inhabited).mp hslot
    rw [List.getElem?_eq_none (Nat.le_refl _)] at hpart
    exact absurd hpart.symm (Option.some_ne_none part)
  refine List.nodup_append.mpr ⟨by split <;> simp, htail, ?_⟩
  intro slot hslot slot' hslot' heq
  have hdefault : slot = .default := by
    split at hslot
    · exact List.mem_singleton.mp hslot
    · exact absurd hslot List.not_mem_nil
  rw [← heq, hdefault] at hslot'
  rcases List.mem_append.mp hslot' with hfrom' | hfresh
  · exact default_not_mem_slotsFrom _ _ hfrom'
  · simp at hfresh

/-! ## Changing slots -/

theorem default_update (typeCase : TypeCase) {slots : List Slot} (h : slots.Nodup)
    (change : Variant → Variant) : (typeCase.update slots change).default =
      if .default ∈ slots then change typeCase.default else typeCase.default := by
  induction slots generalizing typeCase with
  | nil => rfl
  | cons slot slots ih =>
      obtain ⟨hslot, hrest⟩ := List.nodup_cons.mp h
      rw [update, List.foldl_cons]
      apply (ih _ hrest).trans
      cases slot with
      | default => rw [if_neg hslot, if_pos List.mem_cons_self]; rfl
      | named index => simp [updateSlot]

/-- Changing distinct slots changes the named variants whose slots are listed. -/
theorem getElem?_named_update (typeCase : TypeCase) {slots : List Slot} (h : slots.Nodup)
    (change : Variant → Variant) (slot : Nat) :
    (typeCase.update slots change).named[slot]? =
      if .named slot ∈ slots then (typeCase.named[slot]?).map change
      else typeCase.named[slot]? := by
  -- The slots are distinct, so what is changed first is not changed again.
  induction slots generalizing typeCase with
  | nil => rfl
  | cons first slots ih =>
      obtain ⟨hfirst, hrest⟩ := List.nodup_cons.mp h
      rw [update, List.foldl_cons]
      apply (ih _ hrest).trans
      cases first with
      | default => simp [updateSlot]
      | named index =>
          by_cases heq : index = slot
          · subst heq
            rw [if_neg hfirst, if_pos List.mem_cons_self, updateSlot, List.getElem?_modify_eq]
            rfl
          · have hne : Slot.named slot ≠ Slot.named index := fun h => heq (Slot.named.inj h).symm
            simp only [List.mem_cons, hne, false_or, updateSlot]
            rw [List.getElem?_modify_ne _ _ heq]

/-- Changing the slots inside a request is a map over the named variants. -/
theorem named_update (typeCase : TypeCase) {slots : List Slot} (h : slots.Nodup)
    (change : Variant → Variant) (hslots : ∀ slot, .named slot ∈ slots ↔
      ∃ variant, typeCase.named[slot]? = some variant ∧
        ∀ type ∈ variant.possible, type ∈ request) :
    (typeCase.update slots change).named = typeCase.named.map fun variant =>
      if variant.possible.subset request then change variant else variant := by
  apply List.ext_getElem?
  intro slot
  rw [getElem?_named_update typeCase h change slot, List.getElem?_map]
  cases hvariant : typeCase.named[slot]? with
  | none => simp
  | some variant =>
      have hmem : Slot.named slot ∈ slots ↔ variant.possible.subset request = true := by
        rw [hslots, hvariant, PossibleTypes.subset_iff_mem]
        simp
      rw [Option.map_some, Option.map_some]
      by_cases hin : variant.possible.subset request = true
      · rw [if_pos (hmem.mpr hin), if_pos hin]
      · rw [if_neg (fun h => hin (hmem.mp h)), if_neg hin]

end TypeCase

end QueryShape
