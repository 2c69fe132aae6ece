import QueryShape.Proofs.Partition
import QueryShape.Proofs.TypeCase.Induction
import QueryShape.Proofs.Ways

/-!
# The merges of a partition

On the way, partitioning a selection set partitions inline fragments and the bodies of spread
fragments, and merges each of these type cases into the one around it. The two divide the object
types in different ways: outer variants are split where need be, nested ones that hold nothing are
left out, and the nested default goes to the outer default or not, depending on what the nested type
case is for. For a single object type nothing of this shows. A merge hands it the content of the
nested variant that holds it, once, behind the content that it has and under the conditions of the
fragment.

Which merges take place is told by the moments of a run. At each moment a type case has been built
for some object types, and some selections are still to be added to it.

## What this module delivers

- `FragmentTable.Moment`: what partitioning a selection set comes to at some moment.
- `FragmentTable.moment_of_partition`: the last moment is that of the partition.
- `FragmentTable.Merges`: a type case is merged into another one on the way.
- `TypeCase.Inductive.moment`, `TypeCase.inductive_gathered`: what holds at each moment.
- `FragmentTable.merge_content`: what a merge does to the content for an object type.
-/

set_option autoImplicit false

namespace QueryShape

/-! ## Moments -/

namespace FragmentTable

variable {table : FragmentTable} {options : TypeCaseOptions} {set : SelectionSet} {depth : Nat}
  {possible : PossibleTypes} {typeCase result : TypeCase} {selections : List Selection}

/-- A moment of partitioning a selection set. A type case has been built for some object types, with
some levels of nested spreads left, and some selections are still to be added to it. -/
inductive Moment (table : FragmentTable) (options : TypeCaseOptions) (set : SelectionSet) :
    Nat → PossibleTypes → TypeCase → List Selection → Prop
  | start : Moment table options set table.size set.possible (.empty set.parent set.possible)
      set.selections
  | next {depth : Nat} {possible : PossibleTypes} {typeCase result : TypeCase}
      {selection : Selection} {rest : List Selection} :
      Moment table options set depth possible typeCase (selection :: rest) →
      TypeCase.add (table.expansion options depth) options possible typeCase selection =
        .ok result →
      Moment table options set depth possible result rest
  /-- An inline fragment has a type case of its own. -/
  | enterInline {depth : Nat} {possible narrowed : PossibleTypes} {typeCase : TypeCase}
      {head : InlineSelection} {parent : String} {inner rest : List Selection} :
      Moment table options set depth possible typeCase
        (.inline head ⟨parent, narrowed, inner⟩ :: rest) →
      Moment table options set depth (possible ∩ narrowed) (.empty parent (possible ∩ narrowed))
        inner
  /-- So has a spread that is looked through, unless it is passed over. -/
  | enterSpread {depth : Nat} {possible : PossibleTypes} {typeCase : TypeCase}
      {head : SpreadSelection} {fragment : Fragment} {rest : List Selection} :
      Moment table options set (depth + 1) possible typeCase (.spread head :: rest) →
      ¬ typeCase.conformsTo (possible ∩ head.possible) head.fragment = true →
      options.mergeSpreads = true → table.get? head.fragment = some fragment →
      Moment table options set depth (possible ∩ head.possible)
        (.empty fragment.typeCondition (possible ∩ head.possible)) fragment.selections.selections

/-- If adding all selections that are left succeeds, a moment comes at which none is left. -/
theorem Moment.last (h : table.Moment options set depth possible typeCase selections)
    (hadd : TypeCase.addAll (table.expansion options depth) options possible typeCase selections =
      .ok result) : table.Moment options set depth possible result [] := by
  induction selections generalizing typeCase with
  | nil =>
      rw [TypeCase.addAll] at hadd
      cases hadd
      exact h
  | cons selection selections ih =>
      rw [TypeCase.addAll] at hadd
      obtain ⟨middle, hfirst, hadd⟩ := bind_eq_ok.mp hadd
      exact ih (.next h hfirst) hadd

theorem moment_of_partition (h : table.partition options set = .ok result) :
    table.Moment options set table.size set.possible result [] :=
  Moment.start.last h

/-! ## Merges -/

/-- At some moment of partitioning a selection set, a nested type case is merged into an outer one
under some conditions. A spread has been recorded in the outer one by then. -/
inductive Merges (table : FragmentTable) (options : TypeCaseOptions) (set : SelectionSet) :
    TypeCase → TypeCase → List Condition → Prop
  | inline {depth : Nat} {possible narrowed : PossibleTypes} {outer nested : TypeCase}
      {head : InlineSelection} {parent : String} {inner rest : List Selection} :
      Moment table options set depth possible outer
        (.inline head ⟨parent, narrowed, inner⟩ :: rest) →
      TypeCase.addAll (table.expansion options depth) options (possible ∩ narrowed)
        (.empty parent (possible ∩ narrowed)) inner = .ok nested →
      Merges table options set outer nested (conditionsOf head.directives)
  | spread {depth : Nat} {possible : PossibleTypes} {typeCase nested : TypeCase}
      {head : SpreadSelection} {rest : List Selection} :
      Moment table options set depth possible typeCase (.spread head :: rest) →
      ¬ typeCase.conformsTo (possible ∩ head.possible) head.fragment = true →
      options.mergeSpreads = true →
      table.expansion options depth head.fragment (possible ∩ head.possible) = .ok nested →
      Merges table options set (typeCase.addSpread options (possible ∩ head.possible) head) nested
        (conditionsOf head.directives)

/-- After a merge, partitioning goes on with the merged type case. -/
theorem Merges.moment {outer nested : TypeCase} {conditions : List Condition}
    (h : table.Merges options set outer nested conditions) : ∃ depth possible rest,
      table.Moment options set depth possible (outer.merge nested conditions) rest := by
  cases h with
  | inline hmoment hnested =>
      refine ⟨_, _, _, hmoment.next ?_⟩
      rw [TypeCase.add, hnested]
      rfl
  | spread hmoment hconforms hmerge hnested =>
      refine ⟨_, _, _, hmoment.next ?_⟩
      rw [TypeCase.add, if_neg hconforms]
      simp only [if_pos hmerge, hnested]
      rfl

end FragmentTable

/-! ## What holds at each moment -/

namespace TypeCase

variable {table : FragmentTable} {options : TypeCaseOptions} {set : SelectionSet} {depth : Nat}
  {possible : PossibleTypes} {typeCase outer nested : TypeCase} {rest : List Selection}
  {conditions : List Condition}

/-- Whatever is inductive holds at each moment, of the selections added by then. -/
theorem Inductive.moment {Holds : PossibleTypes → List Selection → TypeCase → Prop}
    (h : Inductive table options Holds)
    (hmoment : table.Moment options set depth possible typeCase rest) :
    ∃ before, Holds possible before typeCase := by
  induction hmoment with
  | start => exact ⟨[], h.empty set.parent set.possible⟩
  | next _ hadd ih =>
      obtain ⟨before, hbefore⟩ := ih
      exact ⟨_, h.add (h.expansion _) _ hbefore hadd⟩
  | enterInline => exact ⟨[], h.empty _ _⟩
  | enterSpread => exact ⟨[], h.empty _ _⟩

/-- A type case in order, whatever the selections that were added to it. -/
def Gathered (options : TypeCaseOptions) (possible : PossibleTypes) (_ : List Selection)
    (typeCase : TypeCase) : Prop :=
  ∃ all, Gathers options possible all typeCase

theorem inductive_gathered (table : FragmentTable) (options : TypeCaseOptions) :
    Inductive table options (Gathered options) where
  empty parent possible := ⟨_, (presents_empty table options parent possible).toGathers⟩
  field := by
    rintro possible before typeCase ⟨all, h⟩ head set
    exact ⟨_, h.changeAll rfl (fun variant => Variant.possible_append variant _)
      (holding_append_field head set) fun variant hvariant => hvariant.append ⟨trivial, trivial⟩⟩
  passOver h _ _ := h
  keepSpread := by
    rintro possible before typeCase ⟨all, h⟩ head -
    exact ⟨_, h.addSpread head rfl⟩
  openSpread := by
    rintro possible before typeCase nested ⟨all, h⟩ head fragment - - - ⟨all', hn⟩
    have hcapacity : (possible ∩ head.possible).capacity = possible.capacity := rfl
    exact ⟨_, ((h.addSpread head hcapacity).merge hn hcapacity
      (PossibleTypes.inter_within possible head.possible) head.directives).1⟩
  inline := by
    rintro possible before typeCase narrowed inner nested ⟨all, h⟩ head parent ⟨all', hn⟩
    exact ⟨_, (h.merge hn rfl (PossibleTypes.inter_within possible narrowed) head.directives).1⟩

/-- What is merged is in order, and so is the outcome. -/
theorem merged_of_merges (h : table.Merges options set outer nested conditions) :
    nested.WellFormed ∧ (outer.merge nested conditions).Each (Variant.Settled options) ∧
      Merged outer nested (outer.merge nested conditions) conditions := by
  have hgathered := inductive_gathered table options
  cases h with
  | @inline depth possible narrowed _ _ head parent inner rest hmoment hnested =>
      obtain ⟨_, all, houter⟩ := hgathered.moment hmoment
      obtain ⟨_, all', hn⟩ := hgathered.moment (hmoment.enterInline.last hnested)
      obtain ⟨hresult, hmerged⟩ :=
        houter.merge hn rfl (PossibleTypes.inter_within possible narrowed) head.directives
      exact ⟨hn.wellFormed, hresult.settled, hmerged⟩
  | @spread depth possible _ _ head rest hmoment hconforms hmerge hnested =>
      have hcapacity : (possible ∩ head.possible).capacity = possible.capacity := rfl
      obtain ⟨_, all, hbefore⟩ := hgathered.moment hmoment
      obtain ⟨_, -, all', hn⟩ := hgathered.expansion depth _ _ _ hnested
      obtain ⟨hresult, hmerged⟩ := (hbefore.addSpread head hcapacity).merge hn hcapacity
        (PossibleTypes.inter_within possible head.possible) head.directives
      exact ⟨hn.wellFormed, hresult.settled, hmerged⟩

theorem Each.variantFor {P : Variant → Prop} (h : typeCase.Each P) (type : ObjectId) :
    P (typeCase.variantFor type) := by
  by_cases hclaims : typeCase.Claims type
  · exact h.named _ (variantFor_mem hclaims).1
  · rw [variantFor_of_not_claims hclaims]
    exact h.default

end TypeCase

/-! ## The content for an object type -/

section Content

variable {table : FragmentTable} {options : TypeCaseOptions} {set : SelectionSet}
  {outer nested : TypeCase} {conditions : List Condition}

/-- Whatever type cases are merged in partitioning a selection set: an object type that the nested one
is for lies in exactly one of its exhaustive variants, and gets the content of that variant behind the
content that is held for it, by the named variant that has it or else by the default variant. The
conditions of the merge are put in front of those of each item. For the other object types the
content stays as it is. In the merged type case, too, everything applies to all object types of its
variant, and inline fragments carry nothing but conditions. -/
theorem FragmentTable.merge_content (h : table.Merges options set outer nested conditions) :
    (∃ depth possible rest,
      table.Moment options set depth possible (outer.merge nested conditions) rest) ∧
    ∀ type ∈ outer.default.possible,
      ((outer.merge nested conditions).variantFor type).Settled options ∧
      (type ∈ nested.default.possible → ∃ variant ∈ nested.exhaustive, type ∈ variant.possible ∧
        (∀ other ∈ nested.exhaustive, type ∈ other.possible → other = variant) ∧
        ((outer.merge nested conditions).variantFor type).content =
          (outer.variantFor type).content ++ variant.content.map (Occurrence.under conditions)) ∧
      (type ∉ nested.default.possible →
        ((outer.merge nested conditions).variantFor type).content =
          (outer.variantFor type).content) := by
  obtain ⟨hwell, hsettled, hmerged⟩ := TypeCase.merged_of_merges h
  refine ⟨h.moment, fun type htype => ⟨hsettled.variantFor type, fun hin => ?_, fun hout => ?_⟩⟩
  · obtain ⟨variant, ⟨hmem, hvariant⟩, hunique⟩ := hwell.existsUnique_variant hin
    refine ⟨variant, hmem, hvariant, fun other hother hin' => hunique other ⟨hother, hin'⟩, ?_⟩
    have hheld := congrArg Holding.content (hmerged.inside type htype hin)
    rwa [← hwell.holding_of_mem_exhaustive hmem hvariant] at hheld
  · exact congrArg Holding.content (hmerged.outside type htype hout)

/-- Whether a selection set starts with a field and an inline fragment under one condition, and the
type case of the inline fragment is for a post. -/
def Sample.startsWithInline (document : CompiledDocument) (set : SelectionSet) : Bool :=
  match set.selections with
  | .field _ _ :: .inline head ⟨parent, narrowed, inner⟩ :: _ =>
      let types := set.possible ∩ narrowed
      match TypeCase.addAll (document.fragments.expansion .standard document.fragments.size)
        .standard types
        (.empty parent types) inner with
      | .ok nested => set.possible.contains 1 && nested.default.possible.contains 1 &&
          (conditionsOf head.directives).length == 1
      | .error _ => false
  | _ => false

/-- `node { id ... on Post @include(if: $more) { post: id } ...F }`: the content for a post grows by
`post` under the condition. -/
theorem FragmentTable.merge_content_sample : ∃ document set outer nested conditions,
    Sample.schema.compile Sample.texts = .ok document ∧ document.Has set ∧
      document.fragments.Merges .standard set outer nested conditions ∧ conditions.length = 1 ∧
      1 ∈ outer.default.possible ∧ 1 ∈ nested.default.possible ∧
      ∃ variant ∈ nested.exhaustive, 1 ∈ variant.possible ∧
        ((outer.merge nested conditions).variantFor 1).content =
          (outer.variantFor 1).content ++ variant.content.map (Occurrence.under conditions) := by
  obtain ⟨document, set, hcompile, hset, htest⟩ :=
    Sample.exists_set Sample.startsWithInline (by decide +kernel)
  rw [Sample.startsWithInline] at htest
  split at htest
  · next field inner head parent narrowed selections rest hselections =>
      simp only at htest
      split at htest
      · next nested hnested =>
          rw [Bool.and_eq_true, Bool.and_eq_true, beq_iff_eq] at htest
          obtain ⟨⟨htype, hin⟩, hlength⟩ := htest
          -- The field has been added when the inline fragment has its turn.
          have hstart : document.fragments.Moment .standard set document.fragments.size set.possible
              (.empty set.parent set.possible) set.selections := .start
          rw [hselections] at hstart
          have hmoment := hstart.next (by rw [TypeCase.add])
          have hmerges := FragmentTable.Merges.inline hmoment hnested
          obtain ⟨-, hcontent⟩ := FragmentTable.merge_content hmerges
          have houter : 1 ∈ (TypeCase.addField (.empty set.parent set.possible) set.possible
              (.field field inner)).default.possible := by
            have hpossible : (TypeCase.addField (.empty set.parent set.possible) set.possible
                (.field field inner)).default.possible = set.possible :=
              TypeCase.possible_default_changeAll
                (TypeCase.wellFormed_empty set.parent set.possible)
                fun variant => Variant.possible_append variant [.field field inner]
            exact hpossible.symm ▸ htype
          obtain ⟨variant, hmem, hvariant, -, hsame⟩ := (hcontent 1 houter).2.1 hin
          exact ⟨document, set, _, nested, _, hcompile, hset, hmerges, hlength, houter, hin, variant,
            hmem, hvariant, hsame⟩
      · exact absurd htest Bool.false_ne_true
  · exact absurd htest Bool.false_ne_true

end Content

end QueryShape
