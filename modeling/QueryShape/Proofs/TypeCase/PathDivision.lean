import QueryShape.Proofs.Paths
import QueryShape.Proofs.TypeCase.Division
import QueryShape.Proofs.TypeCase.Induction
import QueryShape.Proofs.TypeCase.PartitionContent

/-!
# Partitioning divides by paths

While the selections of a set are added one after the other, the type case keeps two object types
together exactly as long as they have the same paths through the selections so far. A spread that
is passed over parts nothing: its fragment is recorded for the types that it applies to, so a path
leads to an earlier spread of that fragment, and types with the same paths have that one as well.

## What this module delivers

- `Variant.Substantial`: a variant with selections holds something.
- `TypeCase.Divides`: which object types a type case keeps together, for which it holds nothing, and
  which fragments it may have recorded.
- `Divides.changeAll`, `Divides.merge`: what the two ways to extend a type case part.
- `TypeCase.DividesByPaths`: the invariant, for the selections added so far.
- `DividesByPaths.addField`, `DividesByPaths.passOver`, `DividesByPaths.addSpread`,
  `DividesByPaths.mergeSpread`, `DividesByPaths.mergeInline`: one lemma for each way in which a
  selection is added.
- `DividesWithin`, `inductive_dividesWithin`: together they keep the invariant.
- `FragmentTable.partition_dividesByPaths`: what the partition of a selection set keeps together.
-/

set_option autoImplicit false

namespace QueryShape

/-! ## Substantial variants -/

namespace Variant

/-- Selections are there only if they hold something. -/
def Substantial (variant : Variant) : Prop :=
  variant.content = [] → variant.selections = []

variable {variant other : Variant}

theorem narrows_substantial : TypeCase.Narrows Substantial :=
  fun _ _ h _ _ => h

theorem Substantial.conform (h : variant.Substantial) (id : FragmentId) :
    (variant.conform id).Substantial := by
  rw [Substantial, content, selections_conform]
  exact h

theorem substantial_append {selections : List Selection}
    (hcontent : Selection.contentIn selections ≠ []) : (variant.append selections).Substantial := by
  intro hnone
  rw [content, append, Selection.contentIn_append, List.append_eq_nil_iff] at hnone
  exact absurd hnone.2 hcontent

theorem Substantial.absorb (h : variant.Substantial) (hother : other.Substantial)
    (directives : List AppliedDirective) :
    (variant.absorb (conditionsOf directives) other).Substantial := by
  intro hnone
  have hcontent := congrArg Holding.content (holding_absorb variant other directives)
  rw [holding, hnone, Holding.absorb, eq_comm, List.append_eq_nil_iff, List.map_eq_nil_iff]
    at hcontent
  have hselections := hother hcontent.2
  rw [Variant.absorb, foldl_conform, hselections]
  exact h hcontent.1

/-- A substantial variant that holds nothing is void. -/
theorem Substantial.isVoid_iff (h : variant.Substantial) :
    variant.isVoid = true ↔ variant.holding = ⟨[], []⟩ := by
  constructor
  · exact holding_of_isVoid
  · intro hnothing
    have hcontent : variant.content = [] := congrArg Holding.content hnothing
    have hfragments : variant.fragments = [] := congrArg Holding.fragments hnothing
    rw [isVoid, h hcontent, hfragments]
    rfl

end Variant

namespace TypeCase

variable {table : FragmentTable} {options : TypeCaseOptions}
  {possible types request : PossibleTypes} {before inner : List Selection}
  {typeCase nested : TypeCase} {type other : ObjectId}

/-! ## What a type case divides -/

theorem absorb_eq_nil_iff {holding extra : Holding} {conditions : List Condition} :
    holding.absorb conditions extra = ⟨[], []⟩ ↔ holding = ⟨[], []⟩ ∧ extra = ⟨[], []⟩ := by
  obtain ⟨content, fragments⟩ := holding
  obtain ⟨content', fragments'⟩ := extra
  have hfragments : fragments'.foldl addFragment fragments = [] ↔
      fragments = [] ∧ fragments' = [] := by
    simp only [List.eq_nil_iff_forall_not_mem, mem_foldl_addFragment, not_or, forall_and]
  simp only [Holding.absorb, Holding.mk.injEq, List.append_eq_nil_iff, List.map_eq_nil_iff,
    hfragments]
  exact and_and_and_comm

/-- Which of its object types a type case keeps together, for which of them it holds nothing, and
which fragments it may have recorded for them. -/
structure Divides (possible : PossibleTypes) (same : ObjectId → ObjectId → Prop)
    (bare : ObjectId → Prop) (spread : ObjectId → FragmentId → Prop) (typeCase : TypeCase) :
    Prop where
  wellFormed : typeCase.WellFormed
  spans : typeCase.default.possible = possible
  capacity : typeCase.HasCapacity possible.capacity
  grounded : typeCase.Grounded
  substantial : typeCase.Each Variant.Substantial
  together : ∀ type ∈ possible, ∀ other ∈ possible,
    typeCase.Together type other ↔ same type other
  bare : ∀ type ∈ possible, typeCase.holdingFor type = ⟨[], []⟩ ↔ bare type
  spread : ∀ type ∈ possible, ∀ id ∈ (typeCase.holdingFor type).fragments, spread type id

/-- A nested division of some object types keeps the other type with an object type that it holds
something for. -/
def KeepsWith (types : PossibleTypes) (same : ObjectId → ObjectId → Prop) (bare : ObjectId → Prop)
    (type other : ObjectId) : Prop :=
  type ∈ types → ¬ bare type → other ∈ types ∧ same type other

section Divides

variable {same same' : ObjectId → ObjectId → Prop} {bare bare' : ObjectId → Prop}
  {spread spread' : ObjectId → FragmentId → Prop}

theorem Divides.congr (h : Divides possible same bare spread typeCase)
    (hsame : ∀ type ∈ possible, ∀ other ∈ possible, same type other ↔ same' type other)
    (hbare : ∀ type ∈ possible, bare type ↔ bare' type)
    (hspread : ∀ type ∈ possible, ∀ id, spread type id → spread' type id) :
    Divides possible same' bare' spread' typeCase :=
  { h with
    together := fun type htype other hother =>
      (h.together type htype other hother).trans (hsame type htype other hother)
    bare := fun type htype => (h.bare type htype).trans (hbare type htype)
    spread := fun type htype id hid => hspread type htype id (h.spread type htype id hid) }

/-- Adding the same to all variants of a request. -/
theorem Divides.changeAll (h : Divides possible same bare spread typeCase) {extra : Holding}
    {change : Variant → Variant} (hrequest : request.capacity = possible.capacity)
    (hpossible : ∀ variant, (change variant).possible = variant.possible)
    (hholding : ∀ variant, (change variant).holding = variant.holding.absorb [] extra)
    (hsubstantial : ∀ variant, variant.Substantial → (change variant).Substantial)
    (hextra : extra ≠ ⟨[], []⟩) :
    Divides possible
      (fun type other => same type other ∧ (type ∈ request ↔ other ∈ request))
      (fun type => bare type ∧ type ∉ request)
      (fun type id => spread type id ∨ type ∈ request ∧ id ∈ extra.fragments)
      (typeCase.changeAll request change) where
  wellFormed := h.wellFormed.changeAll hpossible
  spans := (possible_default_changeAll h.wellFormed hpossible).trans h.spans
  capacity := h.capacity.changeAll h.wellFormed hrequest hpossible
  grounded := h.grounded.changeAll h.wellFormed hpossible hholding
  substantial := by
    apply h.substantial.changeAll h.wellFormed Variant.narrows_substantial
      (hrequest.trans (by rw [h.spans]))
    exact fun variant hvariant _ => hsubstantial variant hvariant
  together type htype other hother := by
    rw [together_change h.wellFormed hpossible (named_changeAll h.wellFormed)
      (h.spans.symm ▸ htype) (h.spans.symm ▸ hother),
      h.together type htype other hother]
  bare type htype := by
    rw [holdingFor_changeAll h.wellFormed hpossible hholding (h.spans.symm ▸ htype),
      ← h.bare type htype]
    split
    · next hin => simp [absorb_eq_nil_iff, hextra, hin]
    · next hout => simp [hout]
  spread type htype id hid := by
    rw [holdingFor_changeAll h.wellFormed hpossible hholding (h.spans.symm ▸ htype)] at hid
    split at hid
    · next hin =>
        rw [Holding.absorb, mem_foldl_addFragment] at hid
        exact hid.imp (h.spread type htype id) fun hnew => ⟨hin, hnew⟩
    · exact Or.inl (h.spread type htype id hid)

/-- A type case has a variant that is not void for the object types that it holds something for. -/
theorem Divides.isVoid_iff (h : Divides possible same bare spread typeCase) {variant : Variant}
    (hmem : variant ∈ typeCase.exhaustive) (hin : type ∈ variant.possible) :
    variant.isVoid = true ↔ bare type := by
  have htype : type ∈ possible := h.spans ▸ h.wellFormed.covered_iff.mp ⟨variant, hmem, hin⟩
  rw [(h.substantial.exhaustive Variant.narrows_substantial hmem).isVoid_iff,
    h.wellFormed.holding_of_mem_exhaustive hmem hin, h.bare type htype]

/-- The variants that are not void keep the other type with an object type. -/
theorem Divides.keepsWith_iff (h : Divides possible same bare spread typeCase) :
    KeepsWith possible same bare type other ↔ ∀ variant ∈ typeCase.exhaustive,
      variant.isVoid = false → type ∈ variant.possible → other ∈ variant.possible := by
  have hcovered : ∀ {type : ObjectId}, (∃ variant ∈ typeCase.exhaustive,
      type ∈ variant.possible) ↔ type ∈ possible := h.spans ▸ h.wellFormed.covered_iff
  constructor
  · -- A variant that is not void holds something for its types, so those are asked for.
    intro hkeeps variant hmem hvoid hin
    have htype := hcovered.mp ⟨variant, hmem, hin⟩
    have hholds : ¬ bare type := by simpa [← h.isVoid_iff hmem hin] using hvoid
    obtain ⟨hother, hsame⟩ := hkeeps htype hholds
    exact (h.wellFormed.mem_iff_together hmem hin (h.spans.symm ▸ hother)).mpr
      ((h.together type htype other hother).mpr hsame)
  · -- What is held for an object type is held by its variant, which is not void then.
    intro hall htype hholds
    obtain ⟨variant, hmem, hin⟩ := hcovered.mpr htype
    have hvoid : variant.isVoid = false := by
      rw [← Bool.not_eq_true, h.isVoid_iff hmem hin]
      exact hholds
    have hin' := hall variant hmem hvoid hin
    have hother := hcovered.mp ⟨variant, hmem, hin'⟩
    exact ⟨hother, (h.together type htype other hother).mp
      ((h.wellFormed.mem_iff_together hmem hin (h.spans.symm ▸ hother)).mp hin')⟩

/-- Merging a type case for some of the object types. -/
theorem Divides.merge (h : Divides possible same bare spread typeCase)
    (hn : Divides types same' bare' spread' nested) (hcapacity : types.capacity = possible.capacity)
    (hsub : types.Within possible) (directives : List AppliedDirective) :
    Divides possible
      (fun type other => same type other ∧
        KeepsWith types same' bare' type other ∧ KeepsWith types same' bare' other type)
      (fun type => bare type ∧ (type ∈ types → bare' type))
      (fun type id => spread type id ∨ type ∈ types ∧ spread' type id)
      (typeCase.merge nested (conditionsOf directives)) := by
  have hmerged := merged_of_spans h.wellFormed hn.wellFormed hn.grounded h.spans hn.spans hsub
    directives
  have hnested : nested.HasCapacity possible.capacity := hcapacity ▸ hn.capacity
  refine ⟨hmerged.wellFormed, hmerged.possible.trans h.spans,
    h.capacity.merge h.wellFormed hnested _, hmerged.grounded h.grounded hn.grounded,
    ?_, ?_, ?_, ?_⟩
  · apply h.substantial.merge hn.substantial h.wellFormed Variant.narrows_substantial
      (h.spans.symm ▸ hnested)
    intro before variant hbefore hvariant _
    exact hbefore.absorb hvariant directives
  · -- One half of the condition on each variant is about either of the two types.
    intro type htype other hother
    rw [together_merge h.wellFormed (h.spans.symm ▸ htype) (h.spans.symm ▸ hother),
      h.together type htype other hother, hn.keepsWith_iff, hn.keepsWith_iff]
    simp only [iff_iff_implies_and_implies, imp_and, forall_and]
  · -- Inside the nested types the nested holding follows, and outside nothing changes.
    intro type htype
    have houter : type ∈ typeCase.default.possible := h.spans.symm ▸ htype
    rw [← h.bare type htype]
    by_cases hin : type ∈ types
    · rw [hmerged.inside type houter (hn.spans.symm ▸ hin), absorb_eq_nil_iff, hn.bare type hin]
      simp only [hin, true_imp_iff]
    · rw [hmerged.outside type houter (hn.spans.symm ▸ hin)]
      simp only [hin, false_imp_iff, and_true]
  · intro type htype id hid
    have houter : type ∈ typeCase.default.possible := h.spans.symm ▸ htype
    by_cases hin : type ∈ types
    · rw [hmerged.inside type houter (hn.spans.symm ▸ hin), Holding.absorb,
        mem_foldl_addFragment] at hid
      exact hid.imp (h.spread type htype id) fun hnew => ⟨hin, hn.spread type hin id hnew⟩
    · rw [hmerged.outside type houter (hn.spans.symm ▸ hin)] at hid
      exact Or.inl (h.spread type htype id hid)

end Divides

/-! ## The invariant -/

/-- A type case keeps object types together exactly if they have the same paths through the
selections so far. -/
def DividesByPaths (table : FragmentTable) (options : TypeCaseOptions) (possible : PossibleTypes)
    (before : List Selection) : TypeCase → Prop :=
  Divides possible (table.SamePaths options before) (table.Pathless options before)
    (table.PathToSpread options before)

theorem dividesByPaths_empty (table : FragmentTable) (options : TypeCaseOptions) (parent : String)
    (possible : PossibleTypes) :
    DividesByPaths table options possible [] (empty parent possible) where
  wellFormed := wellFormed_empty parent possible
  spans := rfl
  capacity := ⟨rfl, fun _ hmem => absurd hmem List.not_mem_nil⟩
  grounded := grounded_empty parent possible
  substantial := ⟨fun _ => rfl, fun _ hmem => absurd hmem List.not_mem_nil⟩
  together type _ other _ := by
    constructor
    · intro _ places last
      exact iff_of_false FragmentTable.not_path_of_nil FragmentTable.not_path_of_nil
    · exact fun _ variant hmem => absurd hmem List.not_mem_nil
  bare type _ := iff_of_true rfl fun _ _ => FragmentTable.not_path_of_nil
  spread type _ id hid := absurd hid List.not_mem_nil

/-- What a nested division keeps together has the same paths through the nested selections, where
those apply. -/
theorem keepsWith_paths_iff :
    KeepsWith types (table.SamePaths options inner) (table.Pathless options inner) type other ∧
        KeepsWith types (table.SamePaths options inner) (table.Pathless options inner) other type ↔
      ∀ rest last, (type ∈ types ∧ table.Path options type inner rest last) ↔
        (other ∈ types ∧ table.Path options other inner rest last) := by
  constructor
  · -- A path of one type shows that there is something to keep with it.
    rintro ⟨hkeeps, hkeeps'⟩ rest last
    constructor
    · rintro ⟨htype, hpath⟩
      obtain ⟨hother, hsame⟩ := hkeeps htype fun hnone => hnone rest last hpath
      exact ⟨hother, (hsame rest last).mp hpath⟩
    · rintro ⟨hother, hpath⟩
      obtain ⟨htype, hsame⟩ := hkeeps' hother fun hnone => hnone rest last hpath
      exact ⟨htype, (hsame rest last).mp hpath⟩
  · intro hall
    have hkeeps : ∀ {left right : ObjectId}, (∀ rest last,
          (left ∈ types ∧ table.Path options left inner rest last) ↔
            (right ∈ types ∧ table.Path options right inner rest last)) →
        KeepsWith types (table.SamePaths options inner) (table.Pathless options inner)
          left right := by
      intro left right hiff hleft hsome
      -- Were the nested selections not for the other type, this one would have no paths either.
      have hright : right ∈ types := by
        by_contra hout
        exact hsome fun rest last hpath => hout ((hiff rest last).mp ⟨hleft, hpath⟩).1
      refine ⟨hright, fun rest last => ?_⟩
      have h := hiff rest last
      rwa [and_iff_right hleft, and_iff_right hright] at h
    exact ⟨hkeeps hall, hkeeps fun rest last => (hall rest last).symm⟩

/-! ## One selection -/

/-- A field is on a path of every object type. -/
theorem DividesByPaths.addField (h : DividesByPaths table options possible before typeCase)
    (head : FieldSelection) (set : Option SelectionSet) :
    DividesByPaths table options possible (before ++ [.field head set])
      (typeCase.addField possible (.field head set)) := by
  have hsubstantial : ∀ variant : Variant, variant.Substantial →
      (variant.append [.field head set]).Substantial := fun variant _ =>
    Variant.substantial_append (by simp [Selection.contentIn, Selection.content])
  -- The request is for all object types, so it parts none of them.
  apply (Divides.changeAll h rfl (fun variant => Variant.possible_append variant _)
    (holding_append_field head set) hsubstantial (by simp)).congr
  · intro type htype other hother
    rw [FragmentTable.samePaths_concat]
    simp [htype, hother, FragmentTable.PathFrom]
  · intro type htype
    rw [FragmentTable.pathless_concat]
    simp [htype, FragmentTable.PathFrom]
  · rintro type htype id (hbefore | ⟨-, hnew⟩)
    · exact hbefore.concat _
    · exact absurd hnew List.not_mem_nil

/-- An inline fragment continues with the paths through its selections. -/
theorem DividesByPaths.mergeInline {narrowed : PossibleTypes}
    (h : DividesByPaths table options possible before typeCase)
    (hn : DividesByPaths table options (possible ∩ narrowed) inner nested) (head : InlineSelection)
    (parent : String) :
    DividesByPaths table options possible (before ++ [.inline head ⟨parent, narrowed, inner⟩])
      (typeCase.merge nested (conditionsOf head.directives)) := by
  have hsub := PossibleTypes.inter_within possible narrowed
  apply (Divides.merge h hn rfl hsub head.directives).congr
  · intro type htype other hother
    rw [FragmentTable.samePaths_concat, keepsWith_paths_iff]
    simp only [PossibleTypes.mem_inter, htype, hother, true_and, FragmentTable.PathFrom]
  · intro type htype
    rw [FragmentTable.pathless_concat]
    simp only [PossibleTypes.mem_inter, htype, true_and, FragmentTable.PathFrom, not_and,
      FragmentTable.Pathless]
    refine and_congr_right fun _ => ?_
    exact ⟨fun h rest last hin => h hin rest last, fun h hin rest last => h rest last hin⟩
  · rintro type htype id (hbefore | ⟨hin, last, places, hid, hpath⟩)
    · exact hbefore.concat _
    · exact ⟨last, _, hid, FragmentTable.path_concat.mpr
        (Or.inr ⟨places, rfl, (PossibleTypes.mem_inter.mp hin).2, hpath⟩)⟩

/-- Recording a spread parts the object types that it applies to from the others. -/
theorem DividesByPaths.record (h : DividesByPaths table options possible before typeCase)
    (head : SpreadSelection) :
    Divides possible
      (fun type other => table.SamePaths options before type other ∧
        (type ∈ head.possible ↔ other ∈ head.possible))
      (fun type => table.Pathless options before type ∧ type ∉ head.possible)
      (table.PathToSpread options (before ++ [.spread head]))
      (typeCase.addSpread options (possible ∩ head.possible) head) := by
  have hsubstantial : ∀ variant : Variant, variant.Substantial →
      (recordSpread options head variant).Substantial := by
    intro variant hvariant
    rw [recordSpread]
    split
    · exact hvariant.conform head.fragment
    · exact Variant.substantial_append (by simp [Selection.contentIn, Selection.content])
  have hrequest : (possible ∩ head.possible).capacity = possible.capacity := rfl
  apply (Divides.changeAll h hrequest (possible_recordSpread head) (holding_recordSpread head)
    hsubstantial (by simp [spreadHolding])).congr
  · intro type htype other hother
    simp only [PossibleTypes.mem_inter, htype, hother, true_and]
  · intro type htype
    simp only [PossibleTypes.mem_inter, htype, true_and]
  · rintro type htype id (hbefore | ⟨hin, hnew⟩)
    · exact hbefore.concat _
    · obtain rfl := List.mem_singleton.mp hnew
      refine ⟨head, _, rfl, FragmentTable.path_concat.mpr (Or.inr ⟨[], rfl, ?_⟩)⟩
      exact ⟨(PossibleTypes.mem_inter.mp hin).2, Or.inl ⟨rfl, rfl⟩⟩

/-- A spread that stays a spread is at the end of a path. -/
theorem DividesByPaths.addSpread (h : DividesByPaths table options possible before typeCase)
    (hmerge : options.mergeSpreads = false) (head : SpreadSelection) :
    DividesByPaths table options possible (before ++ [.spread head])
      (typeCase.addSpread options (possible ∩ head.possible) head) := by
  apply (h.record head).congr
  · intro type htype other hother
    rw [FragmentTable.samePaths_concat]
    simp [FragmentTable.PathFrom, hmerge]
  · intro type htype
    rw [FragmentTable.pathless_concat, FragmentTable.forall_not_pathFrom_spread]
  · exact fun type htype id hspread => hspread

/-- A spread that is merged is at the end of a path, which goes on through the fragment. -/
theorem DividesByPaths.mergeSpread (h : DividesByPaths table options possible before typeCase)
    (hmerge : options.mergeSpreads = true) {head : SpreadSelection} {fragment : Fragment}
    (hget : table.get? head.fragment = some fragment)
    (hn : DividesByPaths table options (possible ∩ head.possible) fragment.selections.selections
      nested) :
    DividesByPaths table options possible (before ++ [.spread head])
      ((typeCase.addSpread options (possible ∩ head.possible) head).merge nested
        (conditionsOf head.directives)) := by
  have hsub := PossibleTypes.inter_within possible head.possible
  -- Recording parts the types that the spread applies to, and merging what differs inside.
  apply (Divides.merge (h.record head) hn rfl hsub head.directives).congr
  · intro type htype other hother
    rw [FragmentTable.samePaths_concat, FragmentTable.pathFrom_spread_congr hmerge hget,
      keepsWith_paths_iff, and_assoc]
    simp only [PossibleTypes.mem_inter, htype, hother, true_and]
  · intro type htype
    rw [FragmentTable.pathless_concat, FragmentTable.forall_not_pathFrom_spread,
      and_iff_left_iff_imp]
    exact fun hbare hin => absurd (PossibleTypes.mem_inter.mp hin).2 hbare.2
  · rintro type htype id (hspread | ⟨hin, last, places, hid, hpath⟩)
    · exact hspread
    · exact ⟨last, _, hid, FragmentTable.path_concat.mpr (Or.inr ⟨places, rfl,
        (PossibleTypes.mem_inter.mp hin).2, Or.inr ⟨hmerge, fragment, hget, hpath⟩⟩)⟩

/-- A spread that is passed over parts nothing: an earlier spread of its fragment is at the end of a
path, for each object type that it applies to. -/
theorem DividesByPaths.passOver (h : DividesByPaths table options possible before typeCase)
    {set : SelectionSet} {head : SpreadSelection}
    (htable : table.AllSpreadsWithin) (hset : table.SpreadsWithin set)
    (hsub : ∀ selection ∈ before ++ [.spread head], selection ∈ set.selections)
    (hwithin : possible.Within set.possible)
    (hconforms : typeCase.conformsTo (possible ∩ head.possible) head.fragment = true) :
    DividesByPaths table options possible (before ++ [.spread head]) typeCase := by
  have hknown : ∀ type ∈ possible, type ∈ head.possible →
      table.PathToSpread options before type head.fragment := by
    intro type htype happlies
    have hrecorded := (h.wellFormed.conformsTo_iff h.grounded fun type hin =>
      h.spans.symm ▸ (PossibleTypes.mem_inter.mp hin).1).mp hconforms
    exact h.spread type htype _ (hrecorded type (PossibleTypes.mem_inter.mpr ⟨htype, happlies⟩))
  have hfrom : ∀ {left right : ObjectId}, left ∈ possible → right ∈ possible →
      table.SamePaths options before left right → ∀ rest last,
        table.PathFrom options left (.spread head) rest last →
          table.PathFrom options right (.spread head) rest last := by
    intro left right hleft hright hsame rest last hpath
    exact hsame.pathFrom_spread htable hset hsub (hknown left hleft hpath.1)
      (hwithin right hright) hpath
  apply Divides.congr h
  · intro type htype other hother
    rw [FragmentTable.samePaths_concat, iff_self_and]
    exact fun hsame rest last => ⟨hfrom htype hother hsame rest last,
      hfrom hother htype hsame.symm rest last⟩
  · intro type htype
    rw [FragmentTable.pathless_concat, FragmentTable.forall_not_pathFrom_spread, iff_self_and]
    intro hbare happlies
    obtain ⟨earlier, places, -, hpath⟩ := hknown type htype happlies
    exact hbare places _ hpath
  · exact fun type htype id hbefore => hbefore.concat _

/-! ## All selections -/

/-- The invariant, as long as the selections stand in a set whose spreads apply to types of their
fragments only. -/
def DividesWithin (table : FragmentTable) (options : TypeCaseOptions) (possible : PossibleTypes)
    (before : List Selection) (typeCase : TypeCase) : Prop :=
  ∀ set, table.SpreadsWithin set → (∀ selection ∈ before, selection ∈ set.selections) →
    possible.Within set.possible → DividesByPaths table options possible before typeCase

theorem inductive_dividesWithin (htable : table.AllSpreadsWithin) (options : TypeCaseOptions) :
    Inductive table options (DividesWithin table options) where
  empty parent possible _ _ _ _ := dividesByPaths_empty table options parent possible
  field h head nested set hset hsub hwithin :=
    (h set hset (List.forall_mem_append.mp hsub).1 hwithin).addField head nested
  passOver h head hconforms set hset hsub hwithin :=
    (h set hset (List.forall_mem_append.mp hsub).1 hwithin).passOver htable hset hsub hwithin
      hconforms
  keepSpread h head hmerge set hset hsub hwithin :=
    (h set hset (List.forall_mem_append.mp hsub).1 hwithin).addSpread hmerge head
  openSpread {possible} _ _ _ h head fragment hmerge _ hget hn set hset hsub hwithin := by
    obtain ⟨hbefore, hlast⟩ := List.forall_mem_append.mp hsub
    rw [List.forall_mem_singleton] at hlast
    -- The spread applies to types of its fragment only.
    have hinner : (possible ∩ head.possible).Within fragment.selections.possible := by
      intro type hin
      have happlies := (PossibleTypes.mem_inter.mp hin).2
      rw [hset.possible_eq hlast hget] at happlies
      exact (PossibleTypes.mem_inter.mp happlies).1
    exact (h set hset hbefore hwithin).mergeSpread hmerge hget
      (hn fragment.selections (htable _ fragment hget) (fun _ hmem => hmem) hinner)
  inline h head parent hn set hset hsub hwithin := by
    obtain ⟨hbefore, hlast⟩ := List.forall_mem_append.mp hsub
    rw [List.forall_mem_singleton] at hlast
    exact (h set hset hbefore hwithin).mergeInline
      (hn _ (hset.inline hlast) (fun _ hmem => hmem)
        fun type hin => (PossibleTypes.mem_inter.mp hin).2) head parent

end TypeCase

/-- The partition of a selection set keeps the object types together that have the same paths. -/
theorem FragmentTable.partition_dividesByPaths {table : FragmentTable} {options : TypeCaseOptions}
    {set : SelectionSet} {typeCase : TypeCase}
    (htable : table.AllSpreadsWithin) (hset : table.SpreadsWithin set)
    (h : table.partition options set = .ok typeCase) :
    TypeCase.DividesByPaths table options set.possible set.selections typeCase :=
  (TypeCase.inductive_dividesWithin htable options).partition h set hset (fun _ hmem => hmem)
    (fun _ htype => htype)

end QueryShape
