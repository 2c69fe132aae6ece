import QueryShape.Proofs.FreshWays
import QueryShape.Proofs.TypeCase.Induction
import QueryShape.Proofs.TypeCase.PartitionContent

/-!
# Partitioning follows fresh ways

While the selections of a set are added one after the other, the type case records for each
object type exactly the fragments spread so far, at any depth, and holds exactly the occurrences
at the ends of fresh ways. The default variant holds those at the ends of fresh ways on which
everything applies to all object types.

## What this module delivers

- `TypeCase.Keeps`: what a type case has recorded, what it holds for each object type, and what
  its default variant holds.
- `Keeps.changeAll`, `Keeps.merge`: what the two ways to extend a type case add.
- `TypeCase.HoldsFresh`: the invariant, for the selections added so far.
- `HoldsFresh.addField`, `HoldsFresh.passOver`, `HoldsFresh.mergeSpread`, `HoldsFresh.mergeInline`:
  one lemma for each way in which a selection is added.
- `inductive_holdsFresh`: together they keep the invariant.
- `FragmentTable.partition_holdsFresh`: what the partition of a selection set holds.
-/

set_option autoImplicit false

namespace QueryShape

namespace TypeCase

variable {table : FragmentTable} {possible types : PossibleTypes}
  {before inner : List Selection} {typeCase nested : TypeCase} {type : ObjectId}
  {occurrence : Occurrence} {id : FragmentId}

/-! ## What a type case keeps -/

theorem mem_content_absorb {holding other : Holding} {conditions : List Condition} :
    occurrence ∈ (holding.absorb conditions other).content ↔ occurrence ∈ holding.content ∨
      ∃ inner ∈ other.content, inner.under conditions = occurrence := by
  rw [Holding.absorb, List.mem_append, List.mem_map]

theorem mem_fragments_absorb {holding other : Holding} {conditions : List Condition} :
    id ∈ (holding.absorb conditions other).fragments ↔
      id ∈ holding.fragments ∨ id ∈ other.fragments := by
  rw [Holding.absorb, mem_foldl_addFragment]

/-- The fragments and the occurrences that a type case keeps for each of its object types, and
the occurrences that its default variant keeps. -/
structure Keeps (possible : PossibleTypes) (fragments : ObjectId → FragmentId → Prop)
    (content : ObjectId → Occurrence → Prop) (default : Occurrence → Prop)
    (typeCase : TypeCase) : Prop where
  wellFormed : typeCase.WellFormed
  spans : typeCase.default.possible = possible
  grounded : typeCase.Grounded
  fragments : ∀ type ∈ possible, ∀ id,
    id ∈ (typeCase.holdingFor type).fragments ↔ fragments type id
  content : ∀ type ∈ possible, ∀ occurrence,
    occurrence ∈ (typeCase.holdingFor type).content ↔ content type occurrence
  default : ∀ occurrence, occurrence ∈ typeCase.default.content ↔ default occurrence

section Keeps

variable {fragments fragments' : ObjectId → FragmentId → Prop}
  {content content' : ObjectId → Occurrence → Prop} {default default' : Occurrence → Prop}

theorem Keeps.congr (h : Keeps possible fragments content default typeCase)
    (hfragments : ∀ type ∈ possible, ∀ id, fragments type id ↔ fragments' type id)
    (hcontent : ∀ type ∈ possible, ∀ occurrence,
      content type occurrence ↔ content' type occurrence)
    (hdefault : ∀ occurrence, default occurrence ↔ default' occurrence) :
    Keeps possible fragments' content' default' typeCase where
  wellFormed := h.wellFormed
  spans := h.spans
  grounded := h.grounded
  fragments type htype id := (h.fragments type htype id).trans (hfragments type htype id)
  content type htype occurrence :=
    (h.content type htype occurrence).trans (hcontent type htype occurrence)
  default occurrence := (h.default occurrence).trans (hdefault occurrence)

theorem keeps_empty (parent : String) (possible : PossibleTypes) :
    Keeps possible (fun _ _ => False) (fun _ _ => False) (fun _ => False)
      (empty parent possible) where
  wellFormed := wellFormed_empty parent possible
  spans := rfl
  grounded := grounded_empty parent possible
  fragments _ _ _ := iff_false_intro List.not_mem_nil
  content _ _ _ := iff_false_intro List.not_mem_nil
  default _ := iff_false_intro List.not_mem_nil

/-- Adding the same to all variants of a request. The default variant gets it if the request
spans all object types. -/
theorem Keeps.changeAll (h : Keeps possible fragments content default typeCase)
    {change : Variant → Variant} {extra : Holding} (request : PossibleTypes)
    (hpossible : ∀ variant, (change variant).possible = variant.possible)
    (hholding : ∀ variant, (change variant).holding = variant.holding.absorb [] extra) :
    Keeps possible (fun type id => fragments type id ∨ type ∈ request ∧ id ∈ extra.fragments)
      (fun type occurrence => content type occurrence ∨
        type ∈ request ∧ occurrence ∈ extra.content)
      (fun occurrence => default occurrence ∨
        possible.Within request ∧ occurrence ∈ extra.content)
      (typeCase.changeAll request change) where
  wellFormed := h.wellFormed.changeAll hpossible
  spans := (possible_default_changeAll h.wellFormed hpossible).trans h.spans
  grounded := h.grounded.changeAll h.wellFormed hpossible hholding
  fragments type htype id := by
    rw [holdingFor_changeAll h.wellFormed hpossible hholding (h.spans.symm ▸ htype),
      ← h.fragments type htype id]
    split
    · next hin => simp only [mem_fragments_absorb, hin, true_and]
    · next hout => simp only [hout, false_and, or_false]
  content type htype occurrence := by
    rw [holdingFor_changeAll h.wellFormed hpossible hholding (h.spans.symm ▸ htype),
      ← h.content type htype occurrence]
    split
    · next hin => simp [mem_content_absorb, hin]
    · next hout => simp only [hout, false_and, or_false]
  default occurrence := by
    -- A request that leaves out some object type does not touch the default variant.
    rw [← h.default occurrence, ← h.spans]
    by_cases hspans : typeCase.default.possible.Within request
    · have hcontent : (change typeCase.default).content =
          (typeCase.default.holding.absorb [] extra).content :=
        congrArg Holding.content (hholding typeCase.default)
      rw [default_changeAll_of_spans h.wellFormed hspans, hcontent, mem_content_absorb]
      simp [hspans, Variant.holding]
    · rw [default_changeAll_of_not_spans h.wellFormed hspans]
      simp only [hspans, false_and, or_false]

/-- Merging a type case for some of the object types. The default variant gets the nested default
if that is for all of them. -/
theorem Keeps.merge (h : Keeps possible fragments content default typeCase)
    (hn : Keeps types fragments' content' default' nested) (hsub : types.Within possible)
    (directives : List AppliedDirective) :
    Keeps possible (fun type id => fragments type id ∨ type ∈ types ∧ fragments' type id)
      (fun type occurrence => content type occurrence ∨ type ∈ types ∧
        ∃ inner, content' type inner ∧ inner.under (conditionsOf directives) = occurrence)
      (fun occurrence => default occurrence ∨ possible.Within types ∧
        ∃ inner, default' inner ∧ inner.under (conditionsOf directives) = occurrence)
      (typeCase.merge nested (conditionsOf directives)) := by
  have hmerged := merged_of_spans h.wellFormed hn.wellFormed hn.grounded h.spans hn.spans hsub
    directives
  -- For each object type, what it held is kept, and the nested holding follows inside.
  refine ⟨hmerged.wellFormed, hmerged.possible.trans h.spans,
    hmerged.grounded h.grounded hn.grounded, ?_, ?_, ?_⟩
  · intro type htype id
    have houter : type ∈ typeCase.default.possible := h.spans.symm ▸ htype
    rw [← h.fragments type htype id]
    by_cases hin : type ∈ types
    · rw [hmerged.inside type houter (hn.spans.symm ▸ hin), mem_fragments_absorb,
        hn.fragments type hin id]
      simp only [hin, true_and]
    · rw [hmerged.outside type houter (hn.spans.symm ▸ hin)]
      simp only [hin, false_and, or_false]
  · intro type htype occurrence
    have houter : type ∈ typeCase.default.possible := h.spans.symm ▸ htype
    rw [← h.content type htype occurrence]
    by_cases hin : type ∈ types
    · rw [hmerged.inside type houter (hn.spans.symm ▸ hin), mem_content_absorb]
      simp only [hn.content type hin, hin, true_and]
    · rw [hmerged.outside type houter (hn.spans.symm ▸ hin)]
      simp only [hin, false_and, or_false]
  · intro occurrence
    rw [← h.default occurrence]
    by_cases hspans : possible.Within types
    · have hcontent := congrArg Holding.content (hmerged.default_of_spans
        (by rw [h.spans, hn.spans]; exact hspans))
      have hmem : occurrence ∈ (typeCase.merge nested (conditionsOf directives)).default.content ↔
          occurrence ∈ (typeCase.default.holding.absorb (conditionsOf directives)
            nested.default.holding).content := by rw [← hcontent]; rfl
      rw [hmem, mem_content_absorb]
      simp only [hspans, true_and, ← hn.default]
      rfl
    · rw [hmerged.default_of_not_spans (by rw [h.spans, hn.spans]; exact hspans)]
      simp only [hspans, false_and, or_false]

end Keeps

/-! ## The invariant -/

/-- What a type case keeps after some selections were added: as fragments for an object type
those that are spread for it, and as occurrences the ends of fresh ways. -/
def HoldsFresh (table : FragmentTable) (possible : PossibleTypes) (before : List Selection) :
    TypeCase → Prop :=
  Keeps possible (fun type id => table.Spreads type before id)
    (fun type occurrence => table.ReachesFresh (type ∈ ·) possible before occurrence)
    (fun occurrence => table.ReachesFresh possible.Within possible before occurrence)

theorem holdsFresh_empty (table : FragmentTable) (parent : String) (possible : PossibleTypes) :
    HoldsFresh table possible [] (empty parent possible) := by
  apply (keeps_empty parent possible).congr
  · exact fun _ _ _ => (iff_false_intro FragmentTable.not_spreads_nil).symm
  · exact fun _ _ _ => (iff_false_intro FragmentTable.not_reachesFresh_nil).symm
  · exact fun _ => (iff_false_intro FragmentTable.not_reachesFresh_nil).symm

/-- A field is the end of a fresh way, for all object types. -/
theorem HoldsFresh.addField (h : HoldsFresh table possible before typeCase) (head : FieldSelection)
    (set : Option SelectionSet) :
    HoldsFresh table possible (before ++ [.field head set])
      (typeCase.addField possible (.field head set)) := by
  have hadded := Keeps.changeAll h possible (fun variant => Variant.possible_append variant _)
    (holding_append_field head set)
  apply hadded.congr
  · intro type _ id
    rw [FragmentTable.spreads_append]
    simp
  · intro type htype occurrence
    rw [FragmentTable.reachesFresh_concat]
    simp [htype, FragmentTable.FreshLast]
  · intro occurrence
    have hall : possible.Within possible := fun _ htype => htype
    rw [FragmentTable.reachesFresh_concat]
    simp [hall, FragmentTable.FreshLast]

/-- The object types that a spread applies to conform to its fragment if it is not fresh. -/
theorem HoldsFresh.conformsTo_iff (h : HoldsFresh table possible before typeCase)
    (head : SpreadSelection) :
    typeCase.conformsTo (possible ∩ head.possible) head.fragment = true ↔
      ¬ table.FreshBehind possible before head := by
  have hsub := PossibleTypes.inter_within possible head.possible
  rw [h.wellFormed.conformsTo_iff h.grounded fun type htype => h.spans.symm ▸ hsub type htype,
    FragmentTable.FreshBehind]
  constructor
  · rintro hall ⟨type, htype, happlies, hnew⟩
    exact hnew ((h.fragments type htype _).mp (hall type (PossibleTypes.mem_inter.mpr
      ⟨htype, happlies⟩)))
  · intro hnone type hin
    obtain ⟨htype, happlies⟩ := PossibleTypes.mem_inter.mp hin
    refine (h.fragments type htype _).mpr ?_
    by_contra hnew
    exact hnone ⟨type, htype, happlies, hnew⟩

/-- A spread that is not fresh brings nothing that is not there. -/
theorem HoldsFresh.passOver (h : HoldsFresh table possible before typeCase)
    {head : SpreadSelection} (hknown : ¬ table.FreshBehind possible before head) :
    HoldsFresh table possible (before ++ [.spread head]) typeCase := by
  apply Keeps.congr h
  · -- What the fragment spreads was spread before along with it.
    intro type htype id
    rw [FragmentTable.spreads_append]
    refine ⟨Or.inl, fun hor => hor.elim (fun hbefore => hbefore) fun hlast => ?_⟩
    refine hlast.of_spread fun happlies => ?_
    by_contra hnew
    exact hknown ⟨type, htype, happlies, hnew⟩
  · intro type _ occurrence
    rw [FragmentTable.reachesFresh_concat]
    exact ⟨Or.inl, fun hor => hor.resolve_right fun hlast => hknown hlast.2.1⟩
  · intro occurrence
    rw [FragmentTable.reachesFresh_concat]
    exact ⟨Or.inl, fun hor => hor.resolve_right fun hlast => hknown hlast.2.1⟩

/-- Within a selection set, what applies to all object types of the narrower level applies to all
of the set. -/
theorem within_inter_iff {narrowed : PossibleTypes} (hall : possible.Within narrowed)
    (other : PossibleTypes) :
    (possible ∩ narrowed).Within other ↔ possible.Within other :=
  ⟨fun h type htype => h type (PossibleTypes.mem_inter.mpr ⟨htype, hall type htype⟩),
    fun h type htype => h type (PossibleTypes.mem_inter.mp htype).1⟩

theorem within_inter {narrowed : PossibleTypes} :
    possible.Within (possible ∩ narrowed) ↔ possible.Within narrowed :=
  ⟨fun h type htype => (PossibleTypes.mem_inter.mp (h type htype)).2,
    fun h type htype => PossibleTypes.mem_inter.mpr ⟨htype, h type htype⟩⟩

/-- An inline fragment opens the fresh ways through its selections. -/
theorem HoldsFresh.mergeInline {narrowed : PossibleTypes}
    (h : HoldsFresh table possible before typeCase)
    (hn : HoldsFresh table (possible ∩ narrowed) inner nested) (head : InlineSelection)
    (parent : String) :
    HoldsFresh table possible (before ++ [.inline head ⟨parent, narrowed, inner⟩])
      (typeCase.merge nested (conditionsOf head.directives)) := by
  have hsub := PossibleTypes.inter_within possible narrowed
  apply (Keeps.merge h hn hsub head.directives).congr
  · intro type htype id
    rw [FragmentTable.spreads_append, FragmentTable.spreads_inline]
    simp only [PossibleTypes.mem_inter, htype, true_and]
  · intro type htype occurrence
    rw [FragmentTable.reachesFresh_concat]
    simp only [FragmentTable.FreshLast, PossibleTypes.mem_inter, htype, true_and]
  · intro occurrence
    rw [FragmentTable.reachesFresh_concat, within_inter]
    refine or_congr_right (and_congr_right fun hall => ?_)
    simp only [FragmentTable.reachesFresh_congr (within_inter_iff hall)]

/-- A fresh spread records its fragment and opens the fresh ways through it. -/
theorem HoldsFresh.mergeSpread (h : HoldsFresh table possible before typeCase)
    {head : SpreadSelection} {fragment : Fragment}
    (hget : table.get? head.fragment = some fragment)
    (hfresh : table.FreshBehind possible before head)
    (hn : HoldsFresh table (possible ∩ head.possible) fragment.selections.selections nested) :
    HoldsFresh table possible (before ++ [.spread head])
      ((typeCase.addSpread .standard (possible ∩ head.possible) head).merge nested
        (conditionsOf head.directives)) := by
  have hsub := PossibleTypes.inter_within possible head.possible
  -- Recording the spread adds its fragment and no content.
  have hrecorded := Keeps.changeAll h (possible ∩ head.possible)
    (@possible_recordSpread .standard head) (holding_recordSpread head)
  apply (Keeps.merge hrecorded hn hsub head.directives).congr
  · intro type htype id
    rw [FragmentTable.spreads_append, FragmentTable.spreads_spread hget]
    simp only [PossibleTypes.mem_inter, htype, true_and, spreadHolding, List.mem_singleton]
    tauto
  · intro type htype occurrence
    rw [FragmentTable.reachesFresh_concat]
    simp [FragmentTable.FreshLast, PossibleTypes.mem_inter, htype, hfresh, hget, spreadHolding,
      TypeCaseOptions.standard]
  · intro occurrence
    have hnothing : occurrence ∉ (spreadHolding .standard head).content := List.not_mem_nil
    rw [FragmentTable.reachesFresh_concat, within_inter, or_assoc]
    simp only [hnothing, and_false, false_or]
    refine or_congr_right (and_congr_right fun hall => ?_)
    simp only [FragmentTable.reachesFresh_congr (within_inter_iff hall), hfresh, hget,
      Option.some.injEq, exists_eq_left', true_and]

/-! ## All selections -/

theorem inductive_holdsFresh (table : FragmentTable) :
    Inductive table .standard (HoldsFresh table) where
  empty := holdsFresh_empty table
  field h := h.addField
  passOver h head hconforms := h.passOver ((h.conformsTo_iff head).mp hconforms)
  keepSpread _ _ hmerge := nomatch hmerge
  openSpread h head _ _ hnew hget hn :=
    h.mergeSpread hget (not_not.mp fun hknown => hnew ((h.conformsTo_iff head).mpr hknown)) hn
  inline h head parent hn := h.mergeInline hn head parent

end TypeCase

/-- The partition of a selection set follows the fresh ways through it. -/
theorem FragmentTable.partition_holdsFresh {table : FragmentTable} {set : SelectionSet}
    {typeCase : TypeCase} (h : table.partition .standard set = .ok typeCase) :
    TypeCase.HoldsFresh table set.possible set.selections typeCase :=
  (TypeCase.inductive_holdsFresh table).partition h

end QueryShape
