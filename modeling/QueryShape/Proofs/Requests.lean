import QueryShape.Proofs.TypeCase.Merging

/-!
# Requests to a type case

Whoever extends a type case first requests some object types: named variants are split until some of
them are exactly these types, and their slots are returned to be written to. A request must not
change what is held for any object type, else the partition would come to depend on the order in
which selections happen to be added. And its slots must lie wholly inside the request, else what is
written would reach types that it does not apply to.

Both rest on the division being in order when the request comes, and requests and merges keep it in
order. Nothing is asked of the type cases that are merged: their variants may overlap, be empty or
hold object types that the outer one knows nothing of.

## What this module delivers

- `TypeCase.Call`, `TypeCase.afterCalls`: requests and merges, one after the other.
- `WellFormed.merge`, `WellFormed.afterCalls`: the division stays in order, whatever is merged.
- `TypeCase.variantAt?`: the variant in a slot.
- `TypeCase.Answers`: what a request comes to.
- `TypeCase.answers_refine`: every request is answered like that, after any calls.
-/

set_option autoImplicit false

namespace QueryShape

namespace TypeCase

variable {typeCase : TypeCase} {request : PossibleTypes} {type : ObjectId}

/-! ## Calls -/

/-- A call on a type case. -/
inductive Call
  | refine (request : PossibleTypes)
  | merge (nested : TypeCase) (conditions : List Condition)

/-- The type case after a call. -/
def call (typeCase : TypeCase) : Call → TypeCase
  | .refine request => (typeCase.refine request).1
  | .merge nested conditions => typeCase.merge nested conditions

/-- The type case after some calls, one after the other. -/
def afterCalls (typeCase : TypeCase) (calls : List Call) : TypeCase :=
  calls.foldl call typeCase

/-- Nested variants of any kind leave the division in order, for the same object types. -/
theorem WellFormed.foldl_mergeVariant (h : typeCase.WellFormed) (conditions : List Condition)
    (variants : List Variant) :
    (variants.foldl (TypeCase.mergeVariant conditions) typeCase).WellFormed ∧
      (variants.foldl (TypeCase.mergeVariant conditions) typeCase).default = typeCase.default := by
  induction variants generalizing typeCase with
  | nil => exact ⟨h, rfl⟩
  | cons variant variants ih =>
      obtain ⟨hwell, hdefault⟩ := ih (h.mergeVariant conditions variant)
      exact ⟨hwell, hdefault.trans (default_mergeVariant h conditions variant)⟩

theorem WellFormed.merge (h : typeCase.WellFormed) (nested : TypeCase)
    (conditions : List Condition) :
    (typeCase.merge nested conditions).WellFormed ∧
      (typeCase.merge nested conditions).default.possible = typeCase.default.possible := by
  obtain ⟨hwell, hdefault⟩ := h.foldl_mergeVariant conditions nested.exhaustive
  rw [TypeCase.merge]
  generalize nested.exhaustive.foldl (TypeCase.mergeVariant conditions) typeCase = middle
    at hwell hdefault
  split
  · -- The default variant is written to at last, and keeps its object types.
    have hpossible : (middle.updateSlot (·.absorb conditions nested.default) .default).default.possible =
        middle.default.possible := Variant.possible_absorb middle.default nested.default conditions
    exact ⟨hwell.of_map (fun _ => rfl) hpossible (List.map_id _).symm,
      hpossible.trans (by rw [hdefault])⟩
  · exact ⟨hwell, by rw [hdefault]⟩

theorem WellFormed.call (h : typeCase.WellFormed) (next : Call) :
    (typeCase.call next).WellFormed ∧
      (typeCase.call next).default.possible = typeCase.default.possible := by
  cases next with
  | refine request => exact ⟨h.refine request, by rw [TypeCase.call, default_refine]⟩
  | merge nested conditions => exact h.merge nested conditions

theorem WellFormed.afterCalls (h : typeCase.WellFormed) (calls : List Call) :
    (typeCase.afterCalls calls).WellFormed ∧
      (typeCase.afterCalls calls).default.possible = typeCase.default.possible := by
  induction calls generalizing typeCase with
  | nil => exact ⟨h, rfl⟩
  | cons next calls ih =>
      obtain ⟨hwell, hpossible⟩ := h.call next
      obtain ⟨hwell', hpossible'⟩ := ih hwell
      exact ⟨hwell', hpossible'.trans hpossible⟩

/-! ## What a request comes to -/

/-- The variant in a slot. -/
def variantAt? (typeCase : TypeCase) : Slot → Option Variant
  | .default => some typeCase.default
  | .named index => typeCase.named[index]?

/-- How a request leaves a type case, and the slots that it returns. -/
structure Answers (before : TypeCase) (request : PossibleTypes) (after : TypeCase)
    (slots : List Slot) : Prop where
  /-- No named variant is empty. -/
  inhabited : ∀ variant ∈ after.named, variant.possible.isEmpty = false
  disjoint : after.named.Pairwise fun left right => left.possible.disjoint right.possible = true
  inside : ∀ variant ∈ after.named, variant.possible.subset after.default.possible = true
  default : after.default = before.default
  distinct : slots.Nodup
  /-- A named slot is that of a variant which lies inside the request. -/
  within : ∀ index, .named index ∈ slots →
    ∃ variant, after.named[index]? = some variant ∧ variant.possible.subset request = true
  /-- The default variant is returned if everything is requested. -/
  spans_iff : .default ∈ slots ↔ before.default.possible.subset request = true
  /-- The returned variants are what is requested of the possible types. -/
  covered_iff : ∀ type,
    (∃ slot ∈ slots, ∃ variant, after.variantAt? slot = some variant ∧ type ∈ variant.possible) ↔
      type ∈ request ∧ type ∈ before.default.possible
  selections : ∀ type, (after.variantFor type).selections = (before.variantFor type).selections
  fragments : ∀ type, (after.variantFor type).fragments = (before.variantFor type).fragments

/-- A requested object type lies in a variant whose slot is returned. -/
theorem exists_slot_of_mem (h : typeCase.WellFormed) (hin : type ∈ request)
    (htype : type ∈ typeCase.default.possible) :
    ∃ slot ∈ (typeCase.refine request).2, ∃ variant,
      (typeCase.refine request).1.variantAt? slot = some variant ∧ type ∈ variant.possible := by
  by_cases hspans : ∀ other ∈ typeCase.default.possible, other ∈ request
  · refine ⟨.default, default_mem_slots_refine.mpr hspans, typeCase.default, ?_, htype⟩
    rw [variantAt?, default_refine]
  · -- The type is claimed by now, and its variant has a type on the side of the request.
    have hmissing : ∃ missing ∈ typeCase.default.possible, missing ∉ request := by
      simpa only [not_forall, exists_prop] using hspans
    obtain ⟨hmem, hvariant⟩ := variantFor_mem (claims_refine hin htype hmissing)
    obtain ⟨-, -, hside⟩ := of_mem_refine h hmem
    have hwithin := hside.resolve_right fun hout => hout type hvariant hin
    obtain ⟨index, hindex⟩ := List.mem_iff_getElem?.mp hmem
    exact ⟨.named index, (mem_slots_refine h).mpr ⟨_, hindex, hwithin⟩, _, hindex, hvariant⟩

/-- A variant whose slot is returned holds requested types only. -/
theorem WellFormed.mem_of_slot (h : typeCase.WellFormed) {slot : Slot} {variant : Variant}
    (hslot : slot ∈ (typeCase.refine request).2)
    (hvariant : (typeCase.refine request).1.variantAt? slot = some variant)
    (htype : type ∈ variant.possible) : type ∈ request ∧ type ∈ typeCase.default.possible := by
  cases slot with
  | default =>
      rw [variantAt?, default_refine, Option.some.injEq] at hvariant
      subst hvariant
      exact ⟨default_mem_slots_refine.mp hslot type htype, htype⟩
  | named index =>
      obtain ⟨part, hpart, hwithin⟩ := (mem_slots_refine h).mp hslot
      obtain rfl : part = variant := Option.some.inj (hpart.symm.trans hvariant)
      have hinside := (h.refine request).inside part (List.mem_of_getElem? hpart) type htype
      rw [default_refine] at hinside
      exact ⟨hwithin type htype, hinside⟩

theorem WellFormed.answers (h : typeCase.WellFormed) (request : PossibleTypes) :
    Answers typeCase request (typeCase.refine request).1 (typeCase.refine request).2 where
  inhabited variant hmem :=
    PossibleTypes.isEmpty_eq_false_iff.mpr ((h.refine request).inhabited variant hmem)
  disjoint := (h.refine request).disjoint.imp PossibleTypes.disjoint_iff.mpr
  inside variant hmem := PossibleTypes.subset_iff_mem.mpr ((h.refine request).inside variant hmem)
  default := default_refine typeCase request
  distinct := nodup_slots_refine h
  within index hslot := by
    obtain ⟨variant, hvariant, hwithin⟩ := (mem_slots_refine h).mp hslot
    exact ⟨variant, hvariant, PossibleTypes.subset_iff_mem.mpr hwithin⟩
  spans_iff := default_mem_slots_refine.trans PossibleTypes.subset_iff_mem.symm
  covered_iff type := by
    constructor
    · rintro ⟨slot, hslot, variant, hvariant, htype⟩
      exact h.mem_of_slot hslot hvariant htype
    · rintro ⟨hin, htype⟩
      exact exists_slot_of_mem h hin htype
  selections type := by rw [variantFor_refine h request type]; rfl
  fragments type := by rw [variantFor_refine h request type]; rfl

/-- After any requests and merges on a type case that was empty, a request splits named variants into
parts that are inhabited, disjoint and inside the possible types. The slots that it returns are those
of different variants inside the request, and of the default variant if everything is requested.
Together these variants are what is requested of the possible types. What is held for an object type,
by the named variant that has it or else by the default variant, is what was held before. -/
theorem answers_refine (parent : String) (possible : PossibleTypes) (calls : List Call)
    (request : PossibleTypes) :
    let typeCase := (empty parent possible).afterCalls calls
    typeCase.default.possible = possible ∧
      Answers typeCase request (typeCase.refine request).1 (typeCase.refine request).2 := by
  intro typeCase
  obtain ⟨hwell, hpossible⟩ := (wellFormed_empty parent possible).afterCalls calls
  exact ⟨hpossible, hwell.answers request⟩

end TypeCase

/-! ## A sample -/

namespace Sample

/-- Content for the first two of three object types is merged. -/
def typeCaseCalls : List TypeCase.Call :=
  [.merge ⟨⟨⟨"Node", ⟨3, 3, by decide⟩, [.spread default]⟩, [0]⟩, []⟩ []]

end Sample

/-- A request for the last two types splits the variant of the first two and adds one. -/
theorem TypeCase.answers_refine_sample :
    let typeCase := (empty "Node" ⟨3, 7, by decide⟩).afterCalls Sample.typeCaseCalls
    let (refined, slots) := typeCase.refine ⟨3, 6, by decide⟩
    typeCase.named.map (·.possible.ids) = [[0, 1]] ∧
      refined.named.map (·.possible.ids) = [[0], [1], [2]] ∧ slots = [.named 1, .named 2] ∧
      typeCase.Answers ⟨3, 6, by decide⟩ refined slots ∧
      (refined.variantFor 1).fragments = [0] ∧ (refined.variantFor 2).fragments = [] := by
  obtain ⟨-, hanswers⟩ := answers_refine "Node" ⟨3, 7, by decide⟩ Sample.typeCaseCalls
    ⟨3, 6, by decide⟩
  exact ⟨by decide, by decide, by decide, hanswers, by decide, by decide⟩

end QueryShape
