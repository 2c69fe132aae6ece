import QueryShape.Proofs.TypeCase.Merging

/-!
# Which object types a type case keeps together

A type case keeps two object types together if no named variant holds one of them and not the
other. Refining parts the types that the request tells apart, and nothing else does: changes of
variants leave the division as it is. Merging a nested type case refines by each of its variants
that is not void, so it parts what such a variant tells apart.

## What this module delivers

- `TypeCase.Together`: two object types that no named variant tells apart.
- `WellFormed.mem_iff_together`, `WellFormed.together_iff`: together means in one exhaustive
  variant.
- `together_refine`, `together_change`: a request parts what it tells apart.
- `together_merge`: so does every nested variant that is not void.
-/

set_option autoImplicit false

namespace QueryShape.TypeCase

variable {typeCase nested : TypeCase} {request : PossibleTypes} {type other : ObjectId}

/-- Two object types that no named variant tells apart. -/
def Together (typeCase : TypeCase) (type other : ObjectId) : Prop :=
  ∀ variant ∈ typeCase.named, type ∈ variant.possible ↔ other ∈ variant.possible

namespace Together

theorem symm (h : typeCase.Together type other) : typeCase.Together other type :=
  fun variant hmem => (h variant hmem).symm

/-- One of two types that are together is claimed if the other is. -/
theorem claims_iff (h : typeCase.Together type other) :
    typeCase.Claims type ↔ typeCase.Claims other := by
  constructor
  · rintro ⟨variant, hmem, htype⟩
    exact ⟨variant, hmem, (h variant hmem).mp htype⟩
  · rintro ⟨variant, hmem, htype⟩
    exact ⟨variant, hmem, (h variant hmem).mpr htype⟩

end Together

/-! ## Exhaustive variants -/

/-- Two types that one named variant holds are together. -/
theorem WellFormed.together_of_mem (h : typeCase.WellFormed) {variant : Variant}
    (hmem : variant ∈ typeCase.named) (htype : type ∈ variant.possible)
    (hother : other ∈ variant.possible) : typeCase.Together type other := by
  intro found hfound
  constructor
  · intro hin
    rwa [h.eq_of_mem hfound hmem hin htype]
  · intro hin
    rwa [h.eq_of_mem hfound hmem hin hother]

/-- The exhaustive variant of an object type holds the possible types that are together with it. -/
theorem WellFormed.mem_iff_together (h : typeCase.WellFormed) {variant : Variant}
    (hmem : variant ∈ typeCase.exhaustive) (htype : type ∈ variant.possible)
    (hother : other ∈ typeCase.default.possible) :
    other ∈ variant.possible ↔ typeCase.Together type other := by
  rcases mem_exhaustive.mp hmem with hnamed | ⟨rfl, -⟩
  · constructor
    · intro hin
      exact h.together_of_mem hnamed htype hin
    · intro htogether
      exact (htogether variant hnamed).mp htype
  · -- The remainder holds what no named variant claims.
    have hunclaimed := (mem_unclaimed.mp htype).2
    constructor
    · intro hin found hfound
      constructor
      · exact fun hclaimed => absurd ⟨found, hfound, hclaimed⟩ hunclaimed
      · exact fun hclaimed => absurd ⟨found, hfound, hclaimed⟩ (mem_unclaimed.mp hin).2
    · intro htogether
      exact mem_unclaimed.mpr ⟨hother, fun hclaims => hunclaimed (htogether.claims_iff.mpr hclaims)⟩

/-- Two possible types are together if one exhaustive variant holds both. -/
theorem WellFormed.together_iff (h : typeCase.WellFormed) (htype : type ∈ typeCase.default.possible)
    (hother : other ∈ typeCase.default.possible) :
    (∃ variant ∈ typeCase.exhaustive, type ∈ variant.possible ∧ other ∈ variant.possible) ↔
      typeCase.Together type other := by
  constructor
  · rintro ⟨variant, hmem, hin, hin'⟩
    exact (h.mem_iff_together hmem hin hother).mp hin'
  · intro htogether
    obtain ⟨variant, hmem, hin⟩ := h.covered_iff.mpr htype
    exact ⟨variant, hmem, hin, (h.mem_iff_together hmem hin hother).mpr htogether⟩

/-! ## Refining and changing -/

/-- Types that a refinement keeps together were together before. -/
theorem together_of_refine (h : typeCase.WellFormed)
    (hrefined : (typeCase.refine request).1.Together type other) :
    typeCase.Together type other := by
  -- The part that holds a claimed type lies in the variant that holds it.
  have hkeeps : ∀ {left right : ObjectId}, (typeCase.refine request).1.Together left right →
      ∀ variant ∈ typeCase.named, left ∈ variant.possible → right ∈ variant.possible := by
    intro left right htogether variant hmem hleft
    have hclaims : typeCase.Claims left := ⟨variant, hmem, hleft⟩
    have hrefines : (typeCase.refine request).1.Claims left := hclaims.refine
    obtain ⟨hpart, hin⟩ := variantFor_mem hrefines
    obtain ⟨⟨origin, horigin, -, hsub⟩, -⟩ := of_mem_refine h hpart
    have hright := hsub right ((htogether _ hpart).mp hin)
    rcases horigin with hnamed | ⟨-, hunclaimed⟩
    · rwa [h.eq_of_mem hmem hnamed hleft (hsub left hin)]
    · exact absurd hclaims (hunclaimed left hin)
  intro variant hmem
  exact ⟨hkeeps hrefined variant hmem, hkeeps hrefined.symm variant hmem⟩

/-- Types that a refinement keeps together lie on one side of the request. -/
theorem mem_request_of_refine (h : typeCase.WellFormed) (htype : type ∈ typeCase.default.possible)
    (hother : other ∈ typeCase.default.possible)
    (hrefined : (typeCase.refine request).1.Together type other) (hin : type ∈ request) :
    other ∈ request := by
  by_contra hout
  have hclaims := claims_refine hin htype ⟨other, hother, hout⟩
  obtain ⟨hmem, hvariant⟩ := variantFor_mem hclaims
  obtain ⟨-, -, hside⟩ := of_mem_refine h hmem
  rcases hside with hall | hnone
  · exact hout (hall other ((hrefined _ hmem).mp hvariant))
  · exact hnone type hvariant hin

/-- Types that are together on one side of the request stay together. -/
theorem Together.refine (h : typeCase.Together type other)
    (htype : type ∈ typeCase.default.possible) (hother : other ∈ typeCase.default.possible)
    (hrequest : type ∈ request ↔ other ∈ request) :
    (typeCase.refine request).1.Together type other := by
  have hinter : type ∈ request ∩ typeCase.default.possible ↔
      other ∈ request ∩ typeCase.default.possible := by
    rw [PossibleTypes.mem_inter, PossibleTypes.mem_inter, and_iff_left htype, and_iff_left hother]
    exact hrequest
  intro part hpart
  rw [refine_fst] at hpart
  rcases List.mem_append.mp hpart with hsplit | hfresh
  · obtain ⟨variant, hmem, rfl | ⟨-, rfl⟩⟩ := mem_split.mp hsplit
    · cases hstraddles : straddles (request ∩ typeCase.default.possible) variant with
      | true =>
          rw [mem_outside_of_straddles hstraddles, mem_outside_of_straddles hstraddles,
            h variant hmem, hinter]
      | false =>
          rw [outside_of_not_straddles hstraddles]
          exact h variant hmem
    · change type ∈ variant.possible ∩ _ ↔ other ∈ variant.possible ∩ _
      exact (PossibleTypes.mem_inter.trans (and_congr (h variant hmem) hinter)).trans
        PossibleTypes.mem_inter.symm
  · obtain ⟨-, -, hiff, -⟩ := mem_fresh hfresh
    rw [hiff, hiff, h.claims_iff, and_iff_left htype, and_iff_left hother, hrequest]

/-- A refinement parts exactly the types that the request tells apart. -/
theorem together_refine (h : typeCase.WellFormed) (htype : type ∈ typeCase.default.possible)
    (hother : other ∈ typeCase.default.possible) :
    (typeCase.refine request).1.Together type other ↔
      typeCase.Together type other ∧ (type ∈ request ↔ other ∈ request) := by
  constructor
  · intro hrefined
    exact ⟨together_of_refine h hrefined, mem_request_of_refine h htype hother hrefined,
      mem_request_of_refine h hother htype hrefined.symm⟩
  · rintro ⟨htogether, hrequest⟩
    exact htogether.refine htype hother hrequest

/-- Changes of variants that leave their object types alone do not matter. -/
theorem together_of_map {changed : TypeCase} {change : Variant → Variant}
    (hpossible : ∀ variant, (change variant).possible = variant.possible)
    (hnamed : changed.named = typeCase.named.map change) :
    changed.Together type other ↔ typeCase.Together type other := by
  rw [Together, hnamed, List.forall_mem_map]
  simp only [hpossible]
  exact Iff.rfl

/-- A change of the variants inside a request parts what the request tells apart. -/
theorem together_change {changed : TypeCase} {change : Variant → Variant}
    (h : typeCase.WellFormed)
    (hchange : ∀ variant, (change variant).possible = variant.possible)
    (hnamed : changed.named =
      (typeCase.refine request).1.named.map (changeInside request change))
    (htype : type ∈ typeCase.default.possible) (hother : other ∈ typeCase.default.possible) :
    changed.Together type other ↔
      typeCase.Together type other ∧ (type ∈ request ↔ other ∈ request) := by
  rw [together_of_map (possible_changeInside hchange) hnamed]
  exact together_refine h htype hother

/-! ## Merging -/

section Merge

variable {conditions : List Condition}

/-- A void variant leaves the division as it is. Any other parts what it tells apart. -/
theorem together_mergeVariant (h : typeCase.WellFormed) (conditions : List Condition)
    (variant : Variant) (htype : type ∈ typeCase.default.possible)
    (hother : other ∈ typeCase.default.possible) :
    (mergeVariant conditions typeCase variant).Together type other ↔
      typeCase.Together type other ∧
        (variant.isVoid = false → (type ∈ variant.possible ↔ other ∈ variant.possible)) := by
  cases hvoid : variant.isVoid with
  | true =>
      rw [mergeVariant_of_isVoid conditions hvoid]
      simp
  | false =>
      rw [mergeVariant_of_not_isVoid conditions (by simp [hvoid])]
      rw [together_change h (fun before => Variant.possible_absorb before variant conditions)
        (named_changeNamed h) htype hother]
      simp

theorem together_foldl_mergeVariant (conditions : List Condition) (variants : List Variant)
    {typeCase : TypeCase} (h : typeCase.WellFormed) (htype : type ∈ typeCase.default.possible)
    (hother : other ∈ typeCase.default.possible) :
    (variants.foldl (mergeVariant conditions) typeCase).Together type other ↔
      typeCase.Together type other ∧ ∀ variant ∈ variants, variant.isVoid = false →
        (type ∈ variant.possible ↔ other ∈ variant.possible) := by
  induction variants generalizing typeCase with
  | nil => simp
  | cons variant variants ih =>
      have hdefault := default_mergeVariant h conditions variant
      rw [List.foldl_cons, ih (h.mergeVariant conditions variant) (hdefault ▸ htype)
        (hdefault ▸ hother), together_mergeVariant h conditions variant htype hother,
        List.forall_mem_cons, and_assoc]

/-- Merging a nested type case parts what one of its exhaustive variants tells apart, if the variant
is not void. That the default variant gets the nested default in the end does not matter. -/
theorem together_merge (h : typeCase.WellFormed) (htype : type ∈ typeCase.default.possible)
    (hother : other ∈ typeCase.default.possible) :
    (typeCase.merge nested conditions).Together type other ↔
      typeCase.Together type other ∧ ∀ variant ∈ nested.exhaustive, variant.isVoid = false →
        (type ∈ variant.possible ↔ other ∈ variant.possible) := by
  rw [← together_foldl_mergeVariant conditions nested.exhaustive h htype hother, merge]
  split
  · exact Iff.rfl
  · exact Iff.rfl

end Merge

end QueryShape.TypeCase
