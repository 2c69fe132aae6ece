import QueryShape.Proofs.Occurrence
import QueryShape.Proofs.TypeCase.Exhaustive

/-!
# Changing and merging type cases

What a type case holds for an object type is a list of occurrences and a list of fragments.
Both ways to extend a type case are described object type by object type: a change at a
request reaches exactly the object types of the request, and merging a nested type case
hands every object type exactly what the nested case holds for it.

## What this module delivers

- `Holding`: what a variant holds, and `Holding.absorb`: the same with more behind it.
- `TypeCase.holdingFor`: what a type case holds for an object type.
- `Holding.Below`, `TypeCase.Grounded`: the default variant holds nothing that some object
  type lacks.
- `WellFormed.conformsTo_iff`: which object types conform to a fragment.
- `variantFor_changeAll`: a change of all slots of a request.
- `HandedOut`, `Merged`, `merged_merge`: merging a nested type case.
- `Each.changeAll`, `Each.merge`: what both keep of every variant.
-/

set_option autoImplicit false

namespace QueryShape

/-! ## Holdings -/

/-- What a variant holds: occurrences, and the fragments that its object types conform
to. -/
structure Holding where
  content : List Occurrence
  fragments : List FragmentId

/-- What a variant holds. -/
def Variant.holding (variant : Variant) : Holding :=
  ⟨variant.content, variant.fragments⟩

@[simp] theorem Variant.holding_restrict (variant : Variant) (possible : PossibleTypes) :
    (variant.restrict possible).holding = variant.holding := rfl

/-- Adds a fragment at the end, unless it is there already. -/
def addFragment (known : List FragmentId) (id : FragmentId) : List FragmentId :=
  if known.contains id then known else known ++ [id]

theorem mem_addFragment {known : List FragmentId} {id other : FragmentId} :
    other ∈ addFragment known id ↔ other ∈ known ∨ other = id := by
  rw [addFragment]
  split
  · next h =>
      rw [List.contains_iff_mem] at h
      exact ⟨Or.inl, fun hor => hor.elim (fun hmem => hmem) fun heq => heq ▸ h⟩
  · rw [List.mem_append, List.mem_singleton]

theorem mem_foldl_addFragment {known more : List FragmentId} {other : FragmentId} :
    other ∈ more.foldl addFragment known ↔ other ∈ known ∨ other ∈ more := by
  induction more generalizing known with
  | nil => simp
  | cons id more ih => rw [List.foldl_cons, ih, mem_addFragment, List.mem_cons, or_assoc]

namespace Holding

/-- The same with another holding behind it, whose occurrences stand under conditions. -/
def absorb (holding : Holding) (conditions : List Condition) (other : Holding) : Holding :=
  ⟨holding.content ++ other.content.map (Occurrence.under conditions),
    other.fragments.foldl addFragment holding.fragments⟩

@[simp] theorem absorb_nil (holding : Holding) (conditions : List Condition) :
    holding.absorb conditions ⟨[], []⟩ = holding := by
  simp [absorb]

/-- Everything in the lower holding is in the upper one, in the same order. -/
structure Below (lower upper : Holding) : Prop where
  content : lower.content.Sublist upper.content
  fragments : ∀ id ∈ lower.fragments, id ∈ upper.fragments

theorem Below.refl (holding : Holding) : holding.Below holding :=
  ⟨List.Sublist.refl _, fun _ => id⟩

theorem Below.absorb {lower upper lower' upper' : Holding} (h : lower.Below upper)
    (h' : lower'.Below upper') (conditions : List Condition) :
    (lower.absorb conditions lower').Below (upper.absorb conditions upper') where
  content := h.content.append (h'.content.map _)
  fragments id hid := by
    rw [Holding.absorb, mem_foldl_addFragment] at hid ⊢
    exact hid.imp (h.fragments id) (h'.fragments id)

theorem Below.absorb_right {lower upper : Holding} (h : lower.Below upper)
    (conditions : List Condition) (other : Holding) :
    lower.Below (upper.absorb conditions other) where
  content := h.content.trans (List.sublist_append_left _ _)
  fragments id hid := by
    rw [Holding.absorb, mem_foldl_addFragment]
    exact Or.inl (h.fragments id hid)

theorem Below.eq_nil {lower : Holding} (h : lower.Below ⟨[], []⟩) : lower = ⟨[], []⟩ := by
  obtain ⟨content, fragments⟩ := lower
  have hcontent : content = [] := List.sublist_nil.mp h.content
  have hfragments : fragments = [] :=
    List.eq_nil_iff_forall_not_mem.mpr fun id hid => List.not_mem_nil (h.fragments id hid)
  rw [hcontent, hfragments]

end Holding

/-! ## Variants -/

namespace Variant

theorem conform_eq (variant : Variant) (id : FragmentId) :
    variant.conform id = ⟨variant.toSelectionSet, addFragment variant.fragments id⟩ := by
  rw [conform, addFragment]
  split <;> rfl

theorem foldl_conform (ids : List FragmentId) (variant : Variant) :
    ids.foldl conform variant =
      ⟨variant.toSelectionSet, ids.foldl addFragment variant.fragments⟩ := by
  induction ids generalizing variant with
  | nil => rfl
  | cons id ids ih => rw [List.foldl_cons, conform_eq, ih, List.foldl_cons]

theorem contentIn_wrapInConditions (directives : List AppliedDirective) (set : SelectionSet) :
    Selection.contentIn (wrapInConditions (conditionsOf directives) set) =
      (Selection.contentIn set.selections).map (Occurrence.under (conditionsOf directives)) := by
  obtain ⟨parent, possible, selections⟩ := set
  simp only [wrapInConditions]
  split
  · next hnil => rw [hnil, Occurrence.under_nil, List.map_id]
  · rw [Selection.contentIn, Selection.content, Selection.contentIn, List.append_nil,
      conditionsOf_map_directive]

@[simp] theorem possible_append (variant : Variant) (selections : List Selection) :
    (variant.append selections).possible = variant.possible := rfl

@[simp] theorem possible_conform (variant : Variant) (id : FragmentId) :
    (variant.conform id).possible = variant.possible := by
  rw [conform_eq]

@[simp] theorem possible_absorb (variant other : Variant) (conditions : List Condition) :
    (variant.absorb conditions other).possible = variant.possible := by
  rw [absorb, foldl_conform]
  split <;> rfl

theorem holding_absorb (variant other : Variant) (directives : List AppliedDirective) :
    (variant.absorb (conditionsOf directives) other).holding =
      variant.holding.absorb (conditionsOf directives) other.holding := by
  rw [absorb, foldl_conform]
  split
  · next hempty =>
      rw [List.isEmpty_iff] at hempty
      simp [holding, Holding.absorb, content, hempty, Selection.contentIn]
  · simp [holding, Holding.absorb, content, append, Selection.contentIn_append,
      contentIn_wrapInConditions]

theorem holding_of_isVoid {variant : Variant} (h : variant.isVoid = true) :
    variant.holding = ⟨[], []⟩ := by
  rw [isVoid, Bool.and_eq_true, List.isEmpty_iff, List.isEmpty_iff] at h
  rw [holding, content, h.1, h.2, Selection.contentIn]

end Variant

namespace TypeCase

variable {typeCase nested : TypeCase} {request : PossibleTypes} {type : ObjectId}

/-- What a type case holds for an object type. -/
def holdingFor (typeCase : TypeCase) (type : ObjectId) : Holding :=
  (typeCase.variantFor type).holding

/-- What the default variant holds is held for every possible type. -/
def Grounded (typeCase : TypeCase) : Prop :=
  ∀ type ∈ typeCase.default.possible, typeCase.default.holding.Below (typeCase.holdingFor type)

theorem grounded_empty (parent : String) (possible : PossibleTypes) :
    (empty parent possible).Grounded :=
  fun _ _ => Holding.Below.refl _

theorem holdingFor_of_not_claims (h : ¬ typeCase.Claims type) :
    typeCase.holdingFor type = typeCase.default.holding := by
  rw [holdingFor, variantFor_of_not_claims h]

theorem WellFormed.holding_of_mem_exhaustive (h : typeCase.WellFormed) {variant : Variant}
    (hvariant : variant ∈ typeCase.exhaustive) (htype : type ∈ variant.possible) :
    variant.holding = typeCase.holdingFor type := by
  rw [h.eq_restrict_of_mem_exhaustive hvariant htype, Variant.holding_restrict, holdingFor]

/-- Object types conform to a fragment if it is recorded for each of them. -/
theorem WellFormed.conformsTo_iff (h : typeCase.WellFormed) (hg : typeCase.Grounded)
    {types : PossibleTypes} (hsub : ∀ type ∈ types, type ∈ typeCase.default.possible)
    {id : FragmentId} : typeCase.conformsTo types id = true ↔
      ∀ type ∈ types, id ∈ (typeCase.holdingFor type).fragments := by
  rw [conformsTo, Bool.or_eq_true, List.contains_iff_mem, PossibleTypes.subset_iff_mem]
  constructor
  · rintro (hdefault | hnamed) type htype
    · exact (hg type (hsub type htype)).fragments id hdefault
    · obtain ⟨variant, hmem, hin⟩ := mem_unionOf.mp (hnamed type htype)
      obtain ⟨hvariant, hcontains⟩ := List.mem_filter.mp hmem
      rw [holdingFor, h.variantFor_eq hvariant hin]
      exact List.contains_iff_mem.mp hcontains
  · -- What an unclaimed object type has recorded, the default variant has.
    intro hall
    by_cases hdefault : id ∈ typeCase.default.fragments
    · exact Or.inl hdefault
    · refine Or.inr fun type htype => ?_
      have hclaims : typeCase.Claims type := by
        by_contra hnone
        have hrecorded := hall type htype
        rw [holdingFor_of_not_claims hnone] at hrecorded
        exact hdefault hrecorded
      obtain ⟨hmem, hin⟩ := variantFor_mem hclaims
      exact mem_unionOf.mpr ⟨_, List.mem_filter.mpr
        ⟨hmem, List.contains_iff_mem.mpr (hall type htype)⟩, hin⟩

/-! ## Changes that keep the division -/

section Division

variable {changed : TypeCase} {change : Variant → Variant}

theorem WellFormed.of_map (h : typeCase.WellFormed)
    (hpossible : ∀ variant, (change variant).possible = variant.possible)
    (hdefault : changed.default.possible = typeCase.default.possible)
    (hnamed : changed.named = typeCase.named.map change) : changed.WellFormed := by
  -- The object types of all variants stay, and nothing else counts for the division.
  refine ⟨?_, ?_, ?_, ?_⟩
  · rw [hnamed, List.forall_mem_map]
    intro before hbefore
    rw [hpossible]
    exact h.inhabited before hbefore
  · rw [hnamed, List.forall_mem_map]
    intro before hbefore
    rw [hpossible, hdefault]
    exact h.inside before hbefore
  · rw [hnamed, List.forall_mem_map]
    intro before hbefore
    rw [hpossible, hdefault]
    exact h.proper before hbefore
  · rw [hnamed]
    refine List.pairwise_map.mpr (h.disjoint.imp ?_)
    intro left right hdisjoint
    rw [hpossible, hpossible]
    exact hdisjoint

theorem claims_of_map (hpossible : ∀ variant, (change variant).possible = variant.possible)
    (hnamed : changed.named = typeCase.named.map change) :
    changed.Claims type ↔ typeCase.Claims type := by
  rw [Claims, hnamed]
  constructor
  · rintro ⟨variant, hmem, htype⟩
    obtain ⟨before, hbefore, rfl⟩ := List.mem_map.mp hmem
    exact ⟨before, hbefore, hpossible before ▸ htype⟩
  · rintro ⟨variant, hmem, htype⟩
    exact ⟨change variant, List.mem_map_of_mem hmem, (hpossible variant).symm ▸ htype⟩

theorem variantFor_of_map (h : typeCase.WellFormed)
    (hpossible : ∀ variant, (change variant).possible = variant.possible)
    (hdefault : changed.default.possible = typeCase.default.possible)
    (hnamed : changed.named = typeCase.named.map change) (hclaims : typeCase.Claims type) :
    changed.variantFor type = change (typeCase.variantFor type) := by
  obtain ⟨hmem, htype⟩ := variantFor_mem hclaims
  refine (h.of_map hpossible hdefault hnamed).variantFor_eq ?_ ?_
  · rw [hnamed]
    exact List.mem_map_of_mem hmem
  · rw [hpossible]
    exact htype

end Division

/-! ## Changes at a request -/

section Change

variable {change : Variant → Variant}

/-- A change of the named variants inside a request, and of nothing else among them. -/
def changeInside (request : PossibleTypes) (change : Variant → Variant) (variant : Variant) :
    Variant :=
  if variant.possible.subset request then change variant else variant

theorem possible_changeInside
    (hchange : ∀ variant, (change variant).possible = variant.possible) (variant : Variant) :
    (changeInside request change variant).possible = variant.possible := by
  rw [changeInside]
  split
  · exact hchange variant
  · rfl

/-- Changes the named variants at the slots of a request. -/
def changeNamed (typeCase : TypeCase) (request : PossibleTypes) (change : Variant → Variant) :
    TypeCase :=
  (typeCase.refine request).1.update ((typeCase.refine request).2.filter (· != .default)) change

/-- Changes the variants at the slots of a request. -/
def changeAll (typeCase : TypeCase) (request : PossibleTypes) (change : Variant → Variant) :
    TypeCase :=
  (typeCase.refine request).1.update (typeCase.refine request).2 change

theorem named_changeAll (h : typeCase.WellFormed) :
    (typeCase.changeAll request change).named =
      (typeCase.refine request).1.named.map (changeInside request change) :=
  named_update _ (nodup_slots_refine h) change fun _ => mem_slots_refine h

theorem named_changeNamed (h : typeCase.WellFormed) :
    (typeCase.changeNamed request change).named =
      (typeCase.refine request).1.named.map (changeInside request change) := by
  apply named_update _ ((nodup_slots_refine h).filter _) change
  intro slot
  rw [List.mem_filter, mem_slots_refine h]
  simp

theorem default_changeNamed (h : typeCase.WellFormed) :
    (typeCase.changeNamed request change).default = typeCase.default := by
  rw [changeNamed, default_update _ ((nodup_slots_refine h).filter _), if_neg (by simp),
    default_refine]

theorem default_changeAll_of_spans (h : typeCase.WellFormed)
    (hspans : ∀ type ∈ typeCase.default.possible, type ∈ request) :
    (typeCase.changeAll request change).default = change typeCase.default := by
  rw [changeAll, default_update _ (nodup_slots_refine h),
    if_pos (default_mem_slots_refine.mpr hspans), default_refine]

theorem default_changeAll_of_not_spans (h : typeCase.WellFormed)
    (hspans : ¬ ∀ type ∈ typeCase.default.possible, type ∈ request) :
    (typeCase.changeAll request change).default = typeCase.default := by
  rw [changeAll, default_update _ (nodup_slots_refine h),
    if_neg fun hmem => hspans (default_mem_slots_refine.mp hmem), default_refine]

theorem possible_default_changeAll (h : typeCase.WellFormed)
    (hchange : ∀ variant, (change variant).possible = variant.possible) :
    (typeCase.changeAll request change).default.possible = typeCase.default.possible := by
  by_cases hspans : ∀ type ∈ typeCase.default.possible, type ∈ request
  · rw [default_changeAll_of_spans h hspans, hchange]
  · rw [default_changeAll_of_not_spans h hspans]

theorem WellFormed.changeNamed (h : typeCase.WellFormed)
    (hchange : ∀ variant, (change variant).possible = variant.possible) :
    (typeCase.changeNamed request change).WellFormed :=
  (h.refine request).of_map (possible_changeInside hchange)
    (by rw [default_changeNamed h, default_refine]) (named_changeNamed h)

theorem WellFormed.changeAll (h : typeCase.WellFormed)
    (hchange : ∀ variant, (change variant).possible = variant.possible) :
    (typeCase.changeAll request change).WellFormed :=
  (h.refine request).of_map (possible_changeInside hchange)
    (by rw [possible_default_changeAll h hchange, default_refine]) (named_changeAll h)

/-- A claimed object type gets the change exactly if it is requested. -/
theorem changeInside_variantFor (h : typeCase.WellFormed)
    (hclaims : (typeCase.refine request).1.Claims type) :
    changeInside request change ((typeCase.refine request).1.variantFor type) =
      if type ∈ request then change ((typeCase.refine request).1.variantFor type)
      else (typeCase.refine request).1.variantFor type := by
  obtain ⟨hmem, hin⟩ := variantFor_mem hclaims
  obtain ⟨-, -, hside⟩ := of_mem_refine h hmem
  -- The part lies on one side of the request, so one of its types decides for all.
  have hiff : ((typeCase.refine request).1.variantFor type).possible.subset request = true ↔
      type ∈ request := by
    rw [PossibleTypes.subset_iff_mem]
    exact ⟨fun hsub => hsub type hin, fun hrequest =>
      hside.resolve_right fun hout => hout type hin hrequest⟩
  rw [changeInside]
  by_cases hrequest : type ∈ request
  · rw [if_pos (hiff.mpr hrequest), if_pos hrequest]
  · rw [if_neg fun hsub => hrequest (hiff.mp hsub), if_neg hrequest]

/-- A change at a request reaches the object types of the request and no others. -/
theorem variantFor_changeAll (h : typeCase.WellFormed)
    (hchange : ∀ variant, (change variant).possible = variant.possible)
    (htype : type ∈ typeCase.default.possible) : ∃ possible,
    (typeCase.changeAll request change).variantFor type =
      if type ∈ request then change ((typeCase.variantFor type).restrict possible)
      else (typeCase.variantFor type).restrict possible := by
  by_cases hclaims : (typeCase.refine request).1.Claims type
  · -- The division is refined first, which says nothing new, and then changed in place.
    rw [variantFor_of_map (h.refine request) (possible_changeInside hchange)
      (by rw [possible_default_changeAll h hchange, default_refine]) (named_changeAll h) hclaims,
      changeInside_variantFor h hclaims, variantFor_refine h request type]
    exact ⟨_, rfl⟩
  · -- An unclaimed object type is requested only together with all others.
    have hnone : ¬ (typeCase.changeAll request change).Claims type := fun hclaimed =>
      hclaims ((claims_of_map (possible_changeInside hchange) (named_changeAll h)).mp hclaimed)
    have hbefore : ¬ typeCase.Claims type := fun hclaimed => hclaims hclaimed.refine
    rw [variantFor_of_not_claims hnone, variantFor_of_not_claims hbefore]
    refine ⟨typeCase.default.possible, ?_⟩
    rw [Variant.restrict_possible]
    by_cases hrequest : type ∈ request
    · have hspans : ∀ other ∈ typeCase.default.possible, other ∈ request := by
        by_contra hmissing
        refine hclaims (claims_refine hrequest htype ?_)
        simpa only [not_forall, exists_prop] using hmissing
      rw [if_pos hrequest, default_changeAll_of_spans h hspans]
    · rw [if_neg hrequest, default_changeAll_of_not_spans h fun hspans =>
        hrequest (hspans type htype)]

end Change

/-! ## Merging one nested variant -/

section MergeVariant

variable {directives : List AppliedDirective} {variant : Variant}

theorem mergeVariant_of_isVoid (conditions : List Condition) (hvoid : variant.isVoid = true) :
    mergeVariant conditions typeCase variant = typeCase := by
  rw [mergeVariant, if_pos hvoid]

theorem mergeVariant_of_not_isVoid (conditions : List Condition) (hvoid : ¬ variant.isVoid = true) :
    mergeVariant conditions typeCase variant =
      typeCase.changeNamed variant.possible (·.absorb conditions variant) := by
  rw [mergeVariant, if_neg hvoid]
  rfl

theorem WellFormed.mergeVariant (h : typeCase.WellFormed) (conditions : List Condition)
    (variant : Variant) : (mergeVariant conditions typeCase variant).WellFormed := by
  by_cases hvoid : variant.isVoid = true
  · rwa [mergeVariant_of_isVoid conditions hvoid]
  · rw [mergeVariant_of_not_isVoid conditions hvoid]
    exact h.changeNamed fun other => Variant.possible_absorb other variant conditions

theorem default_mergeVariant (h : typeCase.WellFormed) (conditions : List Condition)
    (variant : Variant) :
    (TypeCase.mergeVariant conditions typeCase variant).default = typeCase.default := by
  by_cases hvoid : variant.isVoid = true
  · rw [mergeVariant_of_isVoid conditions hvoid]
  · rw [mergeVariant_of_not_isVoid conditions hvoid, default_changeNamed h]

theorem claims_mergeVariant (h : typeCase.WellFormed) (conditions : List Condition)
    (hvoid : ¬ variant.isVoid = true) :
    (TypeCase.mergeVariant conditions typeCase variant).Claims type ↔
      (typeCase.refine variant.possible).1.Claims type := by
  rw [mergeVariant_of_not_isVoid conditions hvoid]
  exact claims_of_map (possible_changeInside fun other =>
    Variant.possible_absorb other variant conditions) (named_changeNamed h)

theorem Claims.mergeVariant (h : typeCase.WellFormed) (conditions : List Condition)
    (hclaims : typeCase.Claims type) :
    (TypeCase.mergeVariant conditions typeCase variant).Claims type := by
  by_cases hvoid : variant.isVoid = true
  · rwa [mergeVariant_of_isVoid conditions hvoid]
  · exact (claims_mergeVariant h conditions hvoid).mpr hclaims.refine

/-- A claimed object type gets the content of the nested variant exactly if that contains
it. -/
theorem holdingFor_mergeVariant (h : typeCase.WellFormed)
    (hclaims : variant.isVoid = true ∨
      (TypeCase.mergeVariant (conditionsOf directives) typeCase variant).Claims type) :
    (TypeCase.mergeVariant (conditionsOf directives) typeCase variant).holdingFor type =
      if type ∈ variant.possible then
        (typeCase.holdingFor type).absorb (conditionsOf directives) variant.holding
      else typeCase.holdingFor type := by
  by_cases hvoid : variant.isVoid = true
  · rw [mergeVariant_of_isVoid _ hvoid, Variant.holding_of_isVoid hvoid, Holding.absorb_nil,
      ite_self]
  · -- Named variants only are changed, so the object type has to be claimed by now.
    have hrefined := (claims_mergeVariant h _ hvoid).mp (hclaims.resolve_left hvoid)
    rw [holdingFor, mergeVariant_of_not_isVoid _ hvoid,
      variantFor_of_map (h.refine variant.possible)
        (possible_changeInside fun other => Variant.possible_absorb other variant _)
        (by rw [default_changeNamed h, default_refine]) (named_changeNamed h) hrefined,
      changeInside_variantFor h hrefined, variantFor_refine h variant.possible type]
    split
    · rw [Variant.holding_absorb, Variant.holding_restrict, holdingFor]
    · rw [Variant.holding_restrict, holdingFor]

/-- A variant that does not span all object types claims its own, if it holds something. -/
theorem claims_mergeVariant_of_mem (h : typeCase.WellFormed) (conditions : List Condition)
    (hproper : ∃ missing ∈ typeCase.default.possible, missing ∉ variant.possible)
    (htype : type ∈ typeCase.default.possible) (hin : type ∈ variant.possible)
    (hvoid : ¬ variant.isVoid = true) :
    (TypeCase.mergeVariant conditions typeCase variant).Claims type :=
  (claims_mergeVariant h conditions hvoid).mpr (claims_refine hin htype hproper)

/-- So every object type gets the content of such a variant exactly if that contains it. -/
theorem holdingFor_mergeVariant_of_proper (directives : List AppliedDirective)
    (h : typeCase.WellFormed)
    (hproper : ∃ missing ∈ typeCase.default.possible, missing ∉ variant.possible)
    (htype : type ∈ typeCase.default.possible) :
    (TypeCase.mergeVariant (conditionsOf directives) typeCase variant).holdingFor type =
      if type ∈ variant.possible then
        (typeCase.holdingFor type).absorb (conditionsOf directives) variant.holding
      else typeCase.holdingFor type := by
  by_cases hcase : variant.isVoid = true ∨
      (TypeCase.mergeVariant (conditionsOf directives) typeCase variant).Claims type
  · exact holdingFor_mergeVariant h hcase
  · -- An object type that stays unclaimed is not in the variant and keeps the default.
    obtain ⟨hvoid, hnone⟩ := not_or.mp hcase
    have hout : type ∉ variant.possible := fun hin =>
      hnone (claims_mergeVariant_of_mem h _ hproper htype hin hvoid)
    rw [if_neg hout, holdingFor_of_not_claims hnone, default_mergeVariant h,
      holdingFor_of_not_claims fun hbefore => hnone (hbefore.mergeVariant h _)]

end MergeVariant

/-! ## Merging a nested type case -/

section Merge

variable {directives : List AppliedDirective}

/-- What one nested variant after the other adds to the holding for an object type. -/
def absorbAll (conditions : List Condition) (type : ObjectId) (variants : List Variant)
    (holding : Holding) : Holding :=
  variants.foldl (fun holding variant => if type ∈ variant.possible then
    holding.absorb conditions variant.holding else holding) holding

theorem absorbAll_of_forall_not_mem {variants : List Variant}
    (h : ∀ variant ∈ variants, type ∉ variant.possible) (conditions : List Condition)
    (holding : Holding) : absorbAll conditions type variants holding = holding := by
  induction variants generalizing holding with
  | nil => rfl
  | cons variant variants ih =>
      rw [absorbAll, List.foldl_cons, if_neg (h variant List.mem_cons_self)]
      exact ih (fun later hlater => h later (List.mem_cons_of_mem _ hlater)) holding

/-- Of disjoint variants only the one that contains an object type counts for it. -/
theorem absorbAll_of_mem {variants : List Variant} {variant : Variant}
    (hdisjoint : variants.Pairwise fun left right => ∀ type ∈ left.possible,
      type ∉ right.possible) (hmem : variant ∈ variants) (htype : type ∈ variant.possible)
    (conditions : List Condition) (holding : Holding) :
    absorbAll conditions type variants holding = holding.absorb conditions variant.holding := by
  induction variants generalizing holding with
  | nil => exact absurd hmem List.not_mem_nil
  | cons first variants ih =>
      obtain ⟨hfirst, hrest⟩ := List.pairwise_cons.mp hdisjoint
      rw [absorbAll, List.foldl_cons]
      rcases List.mem_cons.mp hmem with rfl | hlater
      · rw [if_pos htype]
        exact absorbAll_of_forall_not_mem (fun other hother => hfirst other hother type htype) _ _
      · rw [if_neg fun hin => hfirst variant hlater type hin htype]
        exact ih hrest hlater holding

/-- Merging variants one after the other, none of which spans all object types. -/
theorem foldl_mergeVariant (directives : List AppliedDirective) (h : typeCase.WellFormed)
    {variants : List Variant}
    (hproper : ∀ variant ∈ variants, ∃ missing ∈ typeCase.default.possible,
      missing ∉ variant.possible) :
    (variants.foldl (mergeVariant (conditionsOf directives)) typeCase).WellFormed ∧
    (variants.foldl (mergeVariant (conditionsOf directives)) typeCase).default =
      typeCase.default ∧
    ∀ type ∈ typeCase.default.possible,
      ((variants.foldl (mergeVariant (conditionsOf directives)) typeCase).holdingFor type =
        absorbAll (conditionsOf directives) type variants (typeCase.holdingFor type)) ∧
      ((typeCase.Claims type ∨
          ∃ variant ∈ variants, type ∈ variant.possible ∧ ¬ variant.isVoid = true) →
        (variants.foldl (mergeVariant (conditionsOf directives)) typeCase).Claims type) := by
  -- The induction carries the default variant along, whose object types no variant spans.
  induction variants generalizing typeCase with
  | nil =>
      refine ⟨h, rfl, fun type _ => ⟨rfl, ?_⟩⟩
      rintro (hclaims | ⟨variant, hmem, -⟩)
      · exact hclaims
      · exact absurd hmem List.not_mem_nil
  | cons variant variants ih =>
      have hdefault : (mergeVariant (conditionsOf directives) typeCase variant).default =
          typeCase.default := default_mergeVariant h _ variant
      obtain ⟨hwell, hdefault', htypes⟩ := ih (h.mergeVariant (conditionsOf directives) variant)
        fun other hother => by
          rw [hdefault]
          exact hproper other (List.mem_cons_of_mem _ hother)
      rw [hdefault] at hdefault' htypes
      refine ⟨hwell, hdefault', fun type htype => ?_⟩
      obtain ⟨hholding, hclaims⟩ := htypes type htype
      have hfirst := hproper variant List.mem_cons_self
      refine ⟨?_, ?_⟩
      · rw [List.foldl_cons, hholding,
          holdingFor_mergeVariant_of_proper directives h hfirst htype]
        rfl
      · rintro (hbefore | ⟨other, hother, hin, hvoid⟩)
        · exact hclaims (Or.inl (hbefore.mergeVariant h _))
        · rcases List.mem_cons.mp hother with rfl | hrest
          · exact hclaims (Or.inl (claims_mergeVariant_of_mem h _ hfirst htype hin hvoid))
          · exact hclaims (Or.inr ⟨other, hrest, hin, hvoid⟩)

/-- What merging preserves and what it says about every object type. -/
structure Merged (typeCase nested merged : TypeCase) (conditions : List Condition) : Prop where
  wellFormed : merged.WellFormed
  possible : merged.default.possible = typeCase.default.possible
  default_of_spans : (∀ type ∈ typeCase.default.possible, type ∈ nested.default.possible) →
    merged.default.holding = typeCase.default.holding.absorb conditions nested.default.holding
  default_of_not_spans :
    (¬ ∀ type ∈ typeCase.default.possible, type ∈ nested.default.possible) →
      merged.default = typeCase.default
  inside : ∀ type ∈ typeCase.default.possible, type ∈ nested.default.possible →
    merged.holdingFor type =
      (typeCase.holdingFor type).absorb conditions (nested.holdingFor type)
  outside : ∀ type ∈ typeCase.default.possible, type ∉ nested.default.possible →
    merged.holdingFor type = typeCase.holdingFor type

/-- A nested variant that spans all object types is the whole nested type case. -/
theorem exhaustive_of_spans (hn : nested.WellFormed) {variant : Variant}
    (hvariant : variant ∈ nested.exhaustive)
    (hspans : ∀ type ∈ nested.default.possible, type ∈ variant.possible) :
    nested.named = [] ∧ variant.holding = nested.default.holding ∧
      nested.exhaustive = [variant] := by
  rcases mem_exhaustive.mp hvariant with hnamed | ⟨rfl, type, htype, hclaims⟩
  · obtain ⟨missing, hmissing, hout⟩ := hn.proper variant hnamed
    exact absurd (hspans missing hmissing) hout
  · -- The variant is the remainder, and a named variant would leave it a type short.
    have hnone : nested.named = [] := by
      apply List.eq_nil_iff_forall_not_mem.mpr
      intro other hother
      obtain ⟨common, hcommon⟩ := hn.inhabited other hother
      have hin := hspans common (hn.inside other hother common hcommon)
      exact (mem_unclaimed.mp hin).2 ⟨other, hother, hcommon⟩
    refine ⟨hnone, rfl, ?_⟩
    have hsome : nested.unclaimed.isEmpty = false :=
      PossibleTypes.isEmpty_eq_false_iff.mpr ⟨type, mem_unclaimed.mpr ⟨htype, hclaims⟩⟩
    rw [exhaustive, hnone, remainder?, hsome]
    rfl

/-- What is there after every nested variant went to the named variants: claimed object types
have what is theirs. For the others the default variant has it after the last step. -/
structure HandedOut (typeCase nested middle : TypeCase) (conditions : List Condition) : Prop where
  wellFormed : middle.WellFormed
  default : middle.default = typeCase.default
  claimed : ∀ type ∈ typeCase.default.possible, type ∈ nested.default.possible →
    middle.Claims type → middle.holdingFor type =
      (typeCase.holdingFor type).absorb conditions (nested.holdingFor type)
  outside : ∀ type ∈ typeCase.default.possible, type ∉ nested.default.possible →
    middle.holdingFor type = typeCase.holdingFor type
  unclaimed_of_spans : ∀ type ∈ typeCase.default.possible, type ∈ nested.default.possible →
    ¬ middle.Claims type → (∀ type ∈ typeCase.default.possible, type ∈ nested.default.possible) →
      typeCase.default.holding.absorb conditions nested.default.holding =
        (typeCase.holdingFor type).absorb conditions (nested.holdingFor type)
  unclaimed_of_not_spans : ∀ type ∈ typeCase.default.possible, type ∈ nested.default.possible →
    ¬ middle.Claims type →
    (¬ ∀ type ∈ typeCase.default.possible, type ∈ nested.default.possible) →
      typeCase.default.holding =
        (typeCase.holdingFor type).absorb conditions (nested.holdingFor type)

/-- One nested variant for all object types: the unclaimed ones get it from the default. -/
theorem handedOut_of_spans (h : typeCase.WellFormed) (hn : nested.WellFormed)
    (hsub : ∀ type ∈ nested.default.possible, type ∈ typeCase.default.possible)
    {variant : Variant} (hmem : variant ∈ nested.exhaustive)
    (hspans : ∀ type ∈ typeCase.default.possible, type ∈ variant.possible) :
    HandedOut typeCase nested
      (nested.exhaustive.foldl (mergeVariant (conditionsOf directives)) typeCase)
      (conditionsOf directives) := by
  obtain ⟨hnone, hholding, hsingle⟩ := exhaustive_of_spans hn hmem
    fun type htype => hspans type (hsub type htype)
  have hall : ∀ type ∈ typeCase.default.possible, type ∈ nested.default.possible :=
    fun type htype => hn.covered_iff.mp ⟨variant, hmem, hspans type htype⟩
  have hnested : ∀ type, nested.holdingFor type = nested.default.holding := by
    intro type
    apply holdingFor_of_not_claims
    rintro ⟨other, hother, -⟩
    exact List.not_mem_nil (hnone ▸ hother)
  rw [hsingle, List.foldl_cons, List.foldl_nil]
  refine ⟨h.mergeVariant _ variant, default_mergeVariant h _ variant, ?_, ?_, ?_, ?_⟩
  · intro type htype _ hclaimed
    rw [holdingFor_mergeVariant h (Or.inr hclaimed), if_pos (hspans type htype), hholding,
      hnested]
  · exact fun type htype hout => absurd (hall type htype) hout
  · intro type htype _ hnot _
    rw [hnested, holdingFor_of_not_claims fun hbefore => hnot (hbefore.mergeVariant h _)]
  · exact fun _ _ _ _ hsome => absurd hall hsome

/-- No nested variant for all object types: what is not claimed got nothing, so the nested
default has nothing either. -/
theorem handedOut_of_proper (h : typeCase.WellFormed) (hn : nested.WellFormed)
    (hg : nested.Grounded) (directives : List AppliedDirective)
    (hproper : ∀ variant ∈ nested.exhaustive, ∃ missing ∈ typeCase.default.possible,
      missing ∉ variant.possible) :
    HandedOut typeCase nested
      (nested.exhaustive.foldl (mergeVariant (conditionsOf directives)) typeCase)
      (conditionsOf directives) := by
  obtain ⟨hwell, hdefault, htypes⟩ := foldl_mergeVariant directives h hproper
  generalize nested.exhaustive.foldl (mergeVariant (conditionsOf directives)) typeCase = middle
    at hwell hdefault htypes
  have hnothing : ∀ type ∈ typeCase.default.possible, type ∈ nested.default.possible →
      ¬ middle.Claims type → nested.holdingFor type = ⟨[], []⟩ ∧
        nested.default.holding = ⟨[], []⟩ ∧ typeCase.holdingFor type = typeCase.default.holding := by
    intro type htype hin hnot
    obtain ⟨variant, hmem, hcontains⟩ := hn.covered_iff.mpr hin
    have hvoid : variant.isVoid = true := by
      by_contra hvoid
      exact hnot ((htypes type htype).2 (Or.inr ⟨variant, hmem, hcontains, hvoid⟩))
    have hnone : nested.holdingFor type = ⟨[], []⟩ := by
      rw [← hn.holding_of_mem_exhaustive hmem hcontains, Variant.holding_of_isVoid hvoid]
    have hbelow := hg type hin
    rw [hnone] at hbelow
    exact ⟨hnone, hbelow.eq_nil,
      holdingFor_of_not_claims fun hclaims => hnot ((htypes type htype).2 (Or.inl hclaims))⟩
  refine ⟨hwell, hdefault, ?_, ?_, ?_, ?_⟩
  · intro type htype hin _
    obtain ⟨variant, hmem, hcontains⟩ := hn.covered_iff.mpr hin
    rw [(htypes type htype).1, absorbAll_of_mem hn.disjoint_exhaustive hmem hcontains,
      hn.holding_of_mem_exhaustive hmem hcontains]
  · intro type htype hout
    rw [(htypes type htype).1]
    apply absorbAll_of_forall_not_mem
    exact fun variant hmem hcontains => hout (hn.covered_iff.mp ⟨variant, hmem, hcontains⟩)
  · intro type htype hin hnot _
    obtain ⟨hnone, hempty, hsame⟩ := hnothing type htype hin hnot
    rw [hnone, hempty, hsame]
  · intro type htype hin hnot _
    obtain ⟨hnone, -, hsame⟩ := hnothing type htype hin hnot
    rw [hnone, hsame, Holding.absorb_nil]

/-- The last step of merging: the default variant gets the nested default if that spans all
object types, and hands it to those that no named variant claims. -/
theorem HandedOut.merged
    (h : HandedOut typeCase nested
      (nested.exhaustive.foldl (mergeVariant (conditionsOf directives)) typeCase)
      (conditionsOf directives)) :
    Merged typeCase nested (typeCase.merge nested (conditionsOf directives))
      (conditionsOf directives) := by
  rw [merge]
  generalize nested.exhaustive.foldl (mergeVariant (conditionsOf directives)) typeCase = middle
    at h ⊢
  by_cases hspans : ∀ type ∈ typeCase.default.possible, type ∈ nested.default.possible
  · rw [if_pos (PossibleTypes.subset_iff_mem.mpr (by rw [h.default]; exact hspans))]
    generalize hresult :
      middle.updateSlot (·.absorb (conditionsOf directives) nested.default) .default = result
    have hnamed : result.named = middle.named.map id := by
      rw [← hresult, List.map_id]
      rfl
    have hdefault : result.default =
        middle.default.absorb (conditionsOf directives) nested.default := by
      rw [← hresult]
      rfl
    have hpossible : result.default.possible = middle.default.possible := by
      rw [hdefault, Variant.possible_absorb]
    have hnew : result.default.holding =
        typeCase.default.holding.absorb (conditionsOf directives) nested.default.holding := by
      rw [hdefault, Variant.holding_absorb, h.default]
    refine ⟨h.wellFormed.of_map (fun _ => rfl) hpossible hnamed, by rw [hpossible, h.default],
      fun _ => hnew, fun hnot => absurd hspans hnot, ?_, ?_⟩
    · intro type htype hin
      -- The last step changes the default variant alone, so claimed types keep what they have.
      by_cases hclaimed : middle.Claims type
      · have hsame : result.variantFor type = middle.variantFor type :=
          variantFor_of_map h.wellFormed (fun _ => rfl) hpossible hnamed hclaimed
        rw [holdingFor, hsame]
        exact h.claimed type htype hin hclaimed
      · have hnone : ¬ result.Claims type := fun hnow =>
          hclaimed ((claims_of_map (fun _ => rfl) hnamed).mp hnow)
        rw [holdingFor_of_not_claims hnone, hnew]
        exact h.unclaimed_of_spans type htype hin hclaimed hspans
    · exact fun type htype hout => absurd (hspans type htype) hout
  · have hsubset : ¬ middle.default.possible.subset nested.default.possible = true := by
      rw [PossibleTypes.subset_iff_mem, h.default]
      exact hspans
    rw [if_neg hsubset]
    refine ⟨h.wellFormed, by rw [h.default], fun hall => absurd hall hspans, fun _ => h.default,
      ?_, h.outside⟩
    intro type htype hin
    by_cases hclaimed : middle.Claims type
    · exact h.claimed type htype hin hclaimed
    · rw [holdingFor_of_not_claims hclaimed, h.default]
      exact h.unclaimed_of_not_spans type htype hin hclaimed hspans

/-- Merging a nested type case whose object types all belong to the outer one. -/
theorem merged_merge (h : typeCase.WellFormed) (hn : nested.WellFormed) (hg : nested.Grounded)
    (hsub : ∀ type ∈ nested.default.possible, type ∈ typeCase.default.possible) :
    Merged typeCase nested (typeCase.merge nested (conditionsOf directives))
      (conditionsOf directives) := by
  apply HandedOut.merged
  by_cases hwhole : ∃ variant ∈ nested.exhaustive,
      ∀ type ∈ typeCase.default.possible, type ∈ variant.possible
  · obtain ⟨variant, hmem, hspans⟩ := hwhole
    exact handedOut_of_spans h hn hsub hmem hspans
  · apply handedOut_of_proper h hn hg
    intro variant hmem
    by_contra hnone
    refine hwhole ⟨variant, hmem, fun type htype => ?_⟩
    by_contra hout
    exact hnone ⟨type, htype, hout⟩

/-- Merging a type case for some object types into one for all of them. -/
theorem merged_of_spans {possible types : PossibleTypes} (h : typeCase.WellFormed)
    (hn : nested.WellFormed) (hg : nested.Grounded) (hspans : typeCase.default.possible = possible)
    (hnested : nested.default.possible = types) (hsub : ∀ type ∈ types, type ∈ possible)
    (directives : List AppliedDirective) :
    Merged typeCase nested (typeCase.merge nested (conditionsOf directives))
      (conditionsOf directives) := by
  apply merged_merge h hn hg
  rwa [hspans, hnested]

end Merge

/-! ## Properties of every variant -/

section Each

variable {P : Variant → Prop} {change : Variant → Variant}

theorem Each.of_map (h : typeCase.Each P) {changed : TypeCase} (hdefault : P changed.default)
    (hnamed : changed.named = typeCase.named.map (changeInside request change))
    (hchange : ∀ variant, P variant → (∀ type ∈ variant.possible, type ∈ request) →
      P (change variant)) : changed.Each P := by
  refine ⟨hdefault, fun variant hmem => ?_⟩
  rw [hnamed] at hmem
  obtain ⟨before, hbefore, rfl⟩ := List.mem_map.mp hmem
  rw [changeInside]
  split
  · next hsub => exact hchange before (h.named before hbefore) (PossibleTypes.subset_iff_mem.mp hsub)
  · exact h.named before hbefore

/-- A change at a request has to keep the property for variants inside the request. -/
theorem Each.changeAll (h : typeCase.Each P) (hwell : typeCase.WellFormed) (hP : Narrows P)
    (hrequest : request.capacity = typeCase.default.possible.capacity)
    (hchange : ∀ variant, P variant → (∀ type ∈ variant.possible, type ∈ request) →
      P (change variant)) : (typeCase.changeAll request change).Each P := by
  refine (h.refine hP hrequest).of_map ?_ (named_changeAll hwell) hchange
  by_cases hspans : ∀ type ∈ typeCase.default.possible, type ∈ request
  · rw [default_changeAll_of_spans hwell hspans]
    exact hchange _ h.default hspans
  · rw [default_changeAll_of_not_spans hwell hspans]
    exact h.default

theorem Each.mergeVariant (h : typeCase.Each P) (hwell : typeCase.WellFormed) (hP : Narrows P)
    {conditions : List Condition} {variant : Variant}
    (hvariant : variant.possible.capacity = typeCase.default.possible.capacity)
    (habsorb : ∀ before, P before → (∀ type ∈ before.possible, type ∈ variant.possible) →
      P (before.absorb conditions variant)) :
    (TypeCase.mergeVariant conditions typeCase variant).Each P := by
  by_cases hvoid : variant.isVoid = true
  · rwa [mergeVariant_of_isVoid conditions hvoid]
  · rw [mergeVariant_of_not_isVoid conditions hvoid]
    refine (h.refine hP hvariant).of_map ?_ (named_changeNamed hwell) habsorb
    rw [default_changeNamed hwell]
    exact h.default

/-- Merging keeps a property of every variant that absorbing keeps. -/
theorem Each.merge (h : typeCase.Each P) (hnested : nested.Each P) (hwell : typeCase.WellFormed)
    (hP : Narrows P) (hcapacity : nested.HasCapacity typeCase.default.possible.capacity)
    {conditions : List Condition}
    (habsorb : ∀ before variant, P before → P variant →
      (∀ type ∈ before.possible, type ∈ variant.possible) →
      P (before.absorb conditions variant)) : (typeCase.merge nested conditions).Each P := by
  -- The property goes through the fold together with the division it is about.
  have hfold : ∀ (variants : List Variant) (typeCase : TypeCase),
      (∀ variant ∈ variants, P variant ∧
        variant.possible.capacity = typeCase.default.possible.capacity) →
      typeCase.Each P → typeCase.WellFormed →
      (variants.foldl (TypeCase.mergeVariant conditions) typeCase).Each P := by
    intro variants
    induction variants with
    | nil => exact fun _ _ heach _ => heach
    | cons variant variants ih =>
        intro typeCase hvariants heach hwell
        obtain ⟨hvariant, hcap⟩ := hvariants variant List.mem_cons_self
        refine ih _ (fun other hother => ?_) (heach.mergeVariant hwell hP hcap fun before hbefore =>
          habsorb before variant hbefore hvariant) (hwell.mergeVariant conditions variant)
        rw [default_mergeVariant hwell]
        exact hvariants other (List.mem_cons_of_mem _ hother)
  have hmerged := hfold nested.exhaustive typeCase (fun variant hmem =>
    ⟨hnested.exhaustive hP hmem, hcapacity.exhaustive (narrows_capacity _) hmem⟩) h hwell
  rw [TypeCase.merge]
  split
  · next hspans =>
      exact ⟨habsorb _ _ hmerged.default hnested.default (PossibleTypes.subset_iff_mem.mp hspans),
        hmerged.named⟩
  · exact hmerged

theorem HasCapacity.changeAll {capacity : Nat} (h : typeCase.HasCapacity capacity)
    (hwell : typeCase.WellFormed) (hrequest : request.capacity = capacity)
    (hchange : ∀ variant, (change variant).possible = variant.possible) :
    (typeCase.changeAll request change).HasCapacity capacity := by
  apply Each.changeAll h hwell (narrows_capacity capacity) (hrequest.trans h.default.symm)
  intro variant hvariant _
  rw [hchange, hvariant]

theorem HasCapacity.merge {capacity : Nat} (h : typeCase.HasCapacity capacity)
    (hwell : typeCase.WellFormed) (hnested : nested.HasCapacity capacity)
    (conditions : List Condition) : (typeCase.merge nested conditions).HasCapacity capacity := by
  apply Each.merge h hnested hwell (narrows_capacity capacity) (h.default.symm ▸ hnested)
  intro before variant hbefore _ _
  rw [Variant.possible_absorb, hbefore]

end Each

end TypeCase

end QueryShape
