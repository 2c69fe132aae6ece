import QueryShape.Proofs.TypeCase.PartitionContent
import QueryShape.Proofs.Ways

/-!
# Selections without spreads

Only a repeated spread is ever passed over. As long as selections spread nothing at their own
level, a type case therefore holds, for every object type, exactly the list of what has been
added for it: splits share out what is there, and merging an inline fragment appends its content
once to whatever variant an object type is in by then.

## What this module delivers

- `TypeCase.Sound`: what the two ways to extend a type case rely on, with `Sound.changeAll` and
  `Sound.merge` that keep it.
- `Sound.holdingFor_merge`, `Sound.conformsTo_iff`: what is held for an object type after merging,
  and when some object types conform to a fragment.
- `Selection.isSpreadFree`: a selection that spreads nothing at its own level.
- `TypeCase.Lists`: a type case holds a list for each object type, no more and no less, with one
  lemma for fields and one for inline fragments.
- `FragmentTable.partition_lists`: the partition of a selection set without spreads.
-/

set_option autoImplicit false

namespace QueryShape

namespace TypeCase

variable {typeCase nested : TypeCase} {possible types request : PossibleTypes} {type : ObjectId}

/-! ## Sound type cases -/

/-- A type case for some object types, whose default variant holds nothing that one of them
lacks. -/
structure Sound (possible : PossibleTypes) (typeCase : TypeCase) : Prop where
  wellFormed : typeCase.WellFormed
  spans : typeCase.default.possible = possible
  grounded : typeCase.Grounded

theorem sound_empty (parent : String) (possible : PossibleTypes) :
    Sound possible (empty parent possible) :=
  ⟨wellFormed_empty parent possible, rfl, grounded_empty parent possible⟩

theorem Sound.changeAll (h : Sound possible typeCase) (request : PossibleTypes)
    {change : Variant → Variant} {extra : Holding}
    (hpossible : ∀ variant, (change variant).possible = variant.possible)
    (hholding : ∀ variant, (change variant).holding = variant.holding.absorb [] extra) :
    Sound possible (typeCase.changeAll request change) where
  wellFormed := h.wellFormed.changeAll hpossible
  spans := (possible_default_changeAll h.wellFormed hpossible).trans h.spans
  grounded := h.grounded.changeAll h.wellFormed hpossible hholding

theorem Sound.merged (h : Sound possible typeCase) (hn : Sound types nested)
    (hsub : types.Within possible) (directives : List AppliedDirective) :
    Merged typeCase nested (typeCase.merge nested (conditionsOf directives))
      (conditionsOf directives) :=
  merged_of_spans h.wellFormed hn.wellFormed hn.grounded h.spans hn.spans hsub directives

theorem Sound.merge (h : Sound possible typeCase) (hn : Sound types nested)
    (hsub : types.Within possible) (directives : List AppliedDirective) :
    Sound possible (typeCase.merge nested (conditionsOf directives)) := by
  have hmerged := h.merged hn hsub directives
  exact ⟨hmerged.wellFormed, hmerged.possible.trans h.spans,
    hmerged.grounded h.grounded hn.grounded⟩

/-- Merging hands every object type of the nested type case what is held there for it. -/
theorem Sound.holdingFor_merge (h : Sound possible typeCase) (hn : Sound types nested)
    (hsub : types.Within possible) (directives : List AppliedDirective) (htype : type ∈ possible) :
    (typeCase.merge nested (conditionsOf directives)).holdingFor type =
      if type ∈ types then
        (typeCase.holdingFor type).absorb (conditionsOf directives) (nested.holdingFor type)
      else typeCase.holdingFor type := by
  have hmerged := h.merged hn hsub directives
  have houter : type ∈ typeCase.default.possible := h.spans.symm ▸ htype
  split
  · next hin => exact hmerged.inside type houter (hn.spans.symm ▸ hin)
  · next hout => exact hmerged.outside type houter (hn.spans.symm ▸ hout)

theorem Sound.conformsTo_iff (h : Sound possible typeCase) (hsub : types.Within possible)
    {id : FragmentId} : typeCase.conformsTo types id = true ↔
      ∀ type ∈ types, id ∈ (typeCase.holdingFor type).fragments :=
  h.wellFormed.conformsTo_iff h.grounded fun type htype => h.spans.symm ▸ hsub type htype

end TypeCase

/-! ## Selections without spreads -/

mutual

/-- Whether a selection spreads no fragment at its own level. What is nested below a field is on
another level. -/
def Selection.isSpreadFree : Selection → Bool
  | .field _ _ => true
  | .spread _ => false
  | .inline _ ⟨_, _, selections⟩ => Selection.isSpreadFreeIn selections

/-- Whether no selection spreads a fragment at its own level. -/
def Selection.isSpreadFreeIn : List Selection → Bool
  | [] => true
  | selection :: rest => selection.isSpreadFree && Selection.isSpreadFreeIn rest

end

mutual

/-- Without spreads, only fields are selected. -/
theorem Selection.item_of_mem_occurrences {expand : FragmentId → List Occurrence}
    {options : TypeCaseOptions} {type : ObjectId} (selection : Selection)
    (hfree : selection.isSpreadFree = true) :
    ∀ occurrence ∈ selection.occurrences expand options type,
      ∃ head nested, occurrence.item = .field head nested := by
  cases selection with
  | field head nested =>
      rw [Selection.occurrences, List.forall_mem_singleton]
      exact ⟨head, nested, rfl⟩
  | spread head => exact absurd hfree Bool.false_ne_true
  | inline head set =>
      obtain ⟨parent, narrowed, selections⟩ := set
      rw [Selection.occurrences]
      split
      · rw [List.forall_mem_map]
        exact Selection.item_of_mem_occurrencesIn selections hfree
      · exact fun _ hmem => absurd hmem List.not_mem_nil

theorem Selection.item_of_mem_occurrencesIn {expand : FragmentId → List Occurrence}
    {options : TypeCaseOptions} {type : ObjectId} (selections : List Selection)
    (hfree : Selection.isSpreadFreeIn selections = true) :
    ∀ occurrence ∈ Selection.occurrencesIn expand options type selections,
      ∃ head nested, occurrence.item = .field head nested := by
  cases selections with
  | nil => exact fun _ hmem => absurd hmem List.not_mem_nil
  | cons selection rest =>
      rw [Selection.isSpreadFreeIn, Bool.and_eq_true] at hfree
      rw [Selection.occurrencesIn, List.forall_mem_append]
      exact ⟨Selection.item_of_mem_occurrences selection hfree.1,
        Selection.item_of_mem_occurrencesIn rest hfree.2⟩

end

namespace TypeCase

variable {typeCase nested : TypeCase} {possible types : PossibleTypes} {type : ObjectId}
  {all all' : ObjectId → List Occurrence} {options : TypeCaseOptions} {expand : Expansion}
  {behind : ObjectId → FragmentId → List Occurrence}

/-- A type case holds exactly a list of occurrences for each of its object types. -/
structure Lists (possible : PossibleTypes) (all : ObjectId → List Occurrence)
    (typeCase : TypeCase) : Prop extends Sound possible typeCase where
  content : ∀ type ∈ possible, (typeCase.holdingFor type).content = all type

theorem Lists.congr (h : Lists possible all typeCase)
    (hall : ∀ type ∈ possible, all type = all' type) : Lists possible all' typeCase :=
  ⟨h.toSound, fun type htype => (h.content type htype).trans (hall type htype)⟩

theorem lists_empty (parent : String) (possible : PossibleTypes) :
    Lists possible (fun _ => []) (empty parent possible) :=
  ⟨sound_empty parent possible, fun _ _ => rfl⟩

/-- A field goes to every variant, behind what is there. -/
theorem Lists.addField (h : Lists possible all typeCase) (head : FieldSelection)
    (set : Option SelectionSet) :
    Lists possible (fun type => all type ++ [⟨head.conditions, .field head set⟩])
      (typeCase.addField possible (.field head set)) := by
  have hholding := holding_append_field head set
  refine ⟨h.toSound.changeAll possible (fun variant => Variant.possible_append variant _) hholding,
    fun type htype => ?_⟩
  have hnow : (typeCase.addField possible (.field head set)).holdingFor type = _ :=
    holdingFor_changeAll h.wellFormed (fun variant => Variant.possible_append variant _) hholding
      (h.spans.symm ▸ htype)
  rw [hnow, if_pos htype, Holding.absorb, h.content type htype, Occurrence.under_nil, List.map_id]

/-- The content of an inline fragment goes behind what is there, once for each of its object
types, whether they are in named variants or in the default variant. -/
theorem Lists.mergeInline (h : Lists possible all typeCase) (hn : Lists types all' nested)
    (hsub : types.Within possible) (directives : List AppliedDirective) :
    Lists possible
      (fun type => all type ++ if type ∈ types then
        (all' type).map (Occurrence.under (conditionsOf directives)) else [])
      (typeCase.merge nested (conditionsOf directives)) := by
  refine ⟨h.toSound.merge hn.toSound hsub directives, fun type htype => ?_⟩
  rw [h.toSound.holdingFor_merge hn.toSound hsub directives htype]
  split
  · next hin => rw [Holding.absorb, h.content type htype, hn.content type hin]
  · rw [List.append_nil, h.content type htype]

mutual

/-- Adding a selection without spreads succeeds, whatever expansions may do, and lists it behind
what was listed before. -/
theorem lists_add (selection : Selection) (hfree : selection.isSpreadFree = true)
    {possible : PossibleTypes} {typeCase : TypeCase} {all : ObjectId → List Occurrence}
    (h : Lists possible all typeCase) :
    ∃ result, add expand options possible typeCase selection = .ok result ∧
      Lists possible (fun type => all type ++ selection.occurrences (behind type) options type)
        result := by
  cases selection with
  | field head set => exact ⟨_, by rw [add], h.addField head set⟩
  | spread head => exact absurd hfree Bool.false_ne_true
  | inline head set =>
      obtain ⟨parent, narrowed, selections⟩ := set
      -- The nested type case starts empty, so it lists the selections of the fragment alone.
      obtain ⟨nested, hnested, hlists⟩ := lists_addAll selections hfree
        (lists_empty parent (possible ∩ narrowed))
      rw [add, hnested]
      refine ⟨_, rfl, (h.mergeInline hlists (PossibleTypes.inter_within possible narrowed)
        head.directives).congr fun type htype => ?_⟩
      simp only [Selection.occurrences, PossibleTypes.mem_inter, htype, true_and, List.nil_append]

/-- Adding selections without spreads, one after the other. -/
theorem lists_addAll (selections : List Selection)
    (hfree : Selection.isSpreadFreeIn selections = true) {possible : PossibleTypes}
    {typeCase : TypeCase} {all : ObjectId → List Occurrence} (h : Lists possible all typeCase) :
    ∃ result, addAll expand options possible typeCase selections = .ok result ∧
      Lists possible (fun type => all type ++
        Selection.occurrencesIn (behind type) options type selections) result := by
  cases selections with
  | nil => exact ⟨typeCase, by rw [addAll], h.congr fun type _ => by
      rw [Selection.occurrencesIn, List.append_nil]⟩
  | cons selection rest =>
      rw [Selection.isSpreadFreeIn, Bool.and_eq_true] at hfree
      obtain ⟨middle, hfirst, hmiddle⟩ := lists_add selection hfree.1 h
      obtain ⟨result, hrest, hresult⟩ := lists_addAll rest hfree.2 hmiddle
      refine ⟨result, ?_, hresult.congr fun type _ => ?_⟩
      · rw [addAll, hfirst]
        exact hrest
      · rw [Selection.occurrencesIn, List.append_assoc]

end

end TypeCase

/-- The partition of a selection set without spreads lists, for each object type, what the set
selects for it. -/
theorem FragmentTable.partition_lists (table : FragmentTable) (options : TypeCaseOptions)
    {set : SelectionSet} (hfree : Selection.isSpreadFreeIn set.selections = true) :
    ∃ typeCase, table.partition options set = .ok typeCase ∧
      TypeCase.Lists set.possible (fun type => table.occurrences options type set) typeCase := by
  obtain ⟨typeCase, hpartition, hlists⟩ :=
    @TypeCase.lists_addAll options (table.expansion options table.size)
      (table.fragmentOccurrences options) set.selections hfree _ _ _
      (TypeCase.lists_empty set.parent set.possible)
  refine ⟨typeCase, hpartition, hlists.congr fun type _ => ?_⟩
  rw [List.nil_append, FragmentTable.occurrences]

end QueryShape
