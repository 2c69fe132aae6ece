import QueryShape.Proofs.Meets
import QueryShape.Proofs.TypeCase.ExactContent
import QueryShape.Proofs.TypeCase.Induction
import QueryShape.Proofs.TypeCase.ScopeRecords

/-!
# Recorded fragments

While the selections of a set are added one after the other, a type case records fragments in three
ways: a spread is recorded where it applies, and what a nested type case has recorded goes to named
variants or to the default variant along with its content. For each object type this comes to the
list of the fragments met for it so far, in the order in which they were first met. Since the body
of a recorded fragment has been walked through, a spread that is passed over would meet nothing new.

## What this module delivers

- `foldl_addFragment_eraseDups`, `foldl_addFragment_of_eraseDups`: recording fragments one after
  the other keeps first occurrences.
- `TypeCase.Records`: the invariant, for the selections added so far.
- `Records.addField`, `Records.passOver`, `Records.keepSpread`, `Records.mergeSpread`,
  `Records.mergeInline`: one lemma for each way in which a selection is added.
- `inductive_records`: together they keep the invariant.
- `FragmentTable.partition_records`: what the partition of a selection set has recorded.
-/

set_option autoImplicit false

namespace QueryShape

/-! ## Recording one after the other -/

theorem addFragment_eraseDups (ids : List FragmentId) (id : FragmentId) :
    addFragment ids.eraseDups id = (ids ++ [id]).eraseDups := by
  rw [addFragment, eraseDups_concat]
  simp only [List.contains_iff_mem, List.mem_eraseDups]

/-- Behind first occurrences, only first occurrences are recorded. -/
theorem foldl_addFragment_eraseDups (ids more : List FragmentId) :
    more.foldl addFragment ids.eraseDups = (ids ++ more).eraseDups := by
  induction more generalizing ids with
  | nil => rw [List.append_nil, List.foldl_nil]
  | cons id more ih => rw [List.foldl_cons, addFragment_eraseDups, ih, List.append_assoc,
      List.singleton_append]

/-- Fragments that repeat earlier ones need not be recorded. -/
theorem foldl_addFragment_of_eraseDups (known more : List FragmentId) :
    more.eraseDups.foldl addFragment known = more.foldl addFragment known := by
  induction more using List.reverseRecOn with
  | nil => rfl
  | append_singleton more id ih =>
      rw [List.foldl_append, List.foldl_cons, List.foldl_nil, eraseDups_concat]
      split
      · next hmem =>
          have hknown : id ∈ more.foldl addFragment known := mem_foldl_addFragment.mpr (Or.inr hmem)
          rw [ih, addFragment, if_pos (List.contains_iff_mem.mpr hknown)]
      · rw [List.foldl_append, ih, List.foldl_cons, List.foldl_nil]

namespace TypeCase

variable {table : FragmentTable} {options : TypeCaseOptions} {possible types : PossibleTypes}
  {before inner : List Selection} {typeCase nested result : TypeCase} {type : ObjectId}

/-! ## The invariant -/

/-- A type case has recorded, for each of its object types, the fragments met among some selections,
each once and in the order in which they were first met. -/
structure Records (table : FragmentTable) (options : TypeCaseOptions) (possible : PossibleTypes)
    (before : List Selection) (typeCase : TypeCase) : Prop extends Sound possible typeCase where
  fragments : ∀ type ∈ possible, ∃ met, table.Meets options (type ∈ ·) before met ∧
    (typeCase.holdingFor type).fragments = (spreadsMet met).eraseDups

theorem records_empty (table : FragmentTable) (options : TypeCaseOptions) (parent : String)
    (possible : PossibleTypes) : Records table options possible [] (empty parent possible) :=
  ⟨sound_empty parent possible, fun _ _ => ⟨[], .nil, rfl⟩⟩

/-- One more selection, if what is met on the walk through it is recorded. -/
theorem Records.concat (h : Records table options possible before typeCase) {selection : Selection}
    (hsound : Sound possible result)
    (hlast : ∀ type ∈ possible, ∃ more, table.Meets options (type ∈ ·) [selection] more ∧
      (result.holdingFor type).fragments =
        (spreadsMet more).foldl addFragment (typeCase.holdingFor type).fragments) :
    Records table options possible (before ++ [selection]) result := by
  refine ⟨hsound, fun type htype => ?_⟩
  obtain ⟨met, hmet, hrecorded⟩ := h.fragments type htype
  obtain ⟨more, hmore, hnow⟩ := hlast type htype
  refine ⟨met ++ more, hmet.append hmore, ?_⟩
  rw [hnow, hrecorded, foldl_addFragment_eraseDups, spreadsMet_append]

theorem Records.addField (h : Records table options possible before typeCase)
    (head : FieldSelection) (set : Option SelectionSet) :
    Records table options possible (before ++ [.field head set])
      (typeCase.addField possible (.field head set)) := by
  have hpossible := fun variant => Variant.possible_append variant [.field head set]
  have hholding := holding_append_field head set
  have hadded : Sound possible (typeCase.addField possible (.field head set)) :=
    h.toSound.changeAll possible hpossible hholding
  apply h.concat hadded
  intro type htype
  have hnow : (typeCase.addField possible (.field head set)).holdingFor type = _ :=
    holdingFor_changeAll h.wellFormed hpossible hholding (h.spans.symm ▸ htype)
  refine ⟨_, .field head set .nil, ?_⟩
  rw [hnow, if_pos htype, Holding.absorb]
  rfl

/-! ## Spreads -/

/-- A spread is passed over where its fragment is recorded for all object types of the request: the
walk through its body is part of the walk so far. -/
theorem Records.passOver (h : Records table options possible before typeCase)
    {head : SpreadSelection}
    (hconforms : typeCase.conformsTo (possible ∩ head.possible) head.fragment = true) :
    Records table options possible (before ++ [.spread head]) typeCase := by
  have hknown := (h.toSound.conformsTo_iff (PossibleTypes.inter_within possible head.possible)).mp hconforms
  refine ⟨h.toSound, fun type htype => ?_⟩
  obtain ⟨met, hmet, hrecorded⟩ := h.fragments type htype
  -- Whatever else is met, it is enough that its spreads were met before.
  have hmore : ∀ {more : List Occurrence}, table.Meets options (type ∈ ·) [.spread head] more →
      (∀ id ∈ spreadsMet more, id ∈ spreadsMet met) →
      ∃ met, table.Meets options (type ∈ ·) (before ++ [.spread head]) met ∧
        (typeCase.holdingFor type).fragments = (spreadsMet met).eraseDups := by
    intro more hwalk hsub
    refine ⟨met ++ more, hmet.append hwalk, ?_⟩
    rw [hrecorded, spreadsMet_append, eraseDups_append_of_subset hsub]
  by_cases happlies : type ∈ head.possible
  · have hid : head.fragment ∈ spreadsMet met := by
      rw [← List.mem_eraseDups, ← hrecorded]
      exact hknown type (PossibleTypes.mem_inter.mpr ⟨htype, happlies⟩)
    cases hmerge : options.mergeSpreads with
    | false =>
        apply hmore (.keepSpread happlies hmerge .nil)
        intro id hmem
        rwa [List.mem_singleton.mp hmem]
    | true =>
        obtain ⟨fragment, inner, hget, hinner, hsub⟩ := hmet.explored hmerge hid
        apply hmore (.openSpread happlies hmerge hget hinner .nil)
        rw [FragmentTable.spreadsMet_openSpread, List.forall_mem_cons]
        exact ⟨hid, List.forall_mem_append.mpr ⟨hsub, fun _ hmem => absurd hmem List.not_mem_nil⟩⟩
  · exact hmore (.passSpread happlies .nil) fun _ hmem => absurd hmem List.not_mem_nil

theorem Sound.addSpread (h : Sound possible typeCase) (options : TypeCaseOptions)
    (types : PossibleTypes) (head : SpreadSelection) :
    Sound possible (typeCase.addSpread options types head) :=
  h.changeAll types (possible_recordSpread head) (holding_recordSpread head)

/-- A spread is recorded for the object types of its request, and for no others. -/
theorem Sound.fragments_addSpread (h : Sound possible typeCase) (options : TypeCaseOptions)
    (types : PossibleTypes) (head : SpreadSelection) (htype : type ∈ possible) :
    ((typeCase.addSpread options types head).holdingFor type).fragments =
      if type ∈ types then addFragment (typeCase.holdingFor type).fragments head.fragment
      else (typeCase.holdingFor type).fragments := by
  have hnow : (typeCase.addSpread options types head).holdingFor type = _ :=
    holdingFor_changeAll h.wellFormed (possible_recordSpread head) (holding_recordSpread head)
      (h.spans.symm ▸ htype)
  rw [hnow]
  split
  · rw [Holding.absorb, spreadHolding, List.foldl_cons, List.foldl_nil]
  · rfl

/-- A spread that stays a spread. -/
theorem Records.keepSpread (h : Records table options possible before typeCase)
    (hmerge : options.mergeSpreads = false) (head : SpreadSelection) :
    Records table options possible (before ++ [.spread head])
      (typeCase.addSpread options (possible ∩ head.possible) head) := by
  apply h.concat (h.toSound.addSpread options _ head)
  intro type htype
  rw [h.toSound.fragments_addSpread options _ head htype]
  by_cases happlies : type ∈ head.possible
  · rw [if_pos (PossibleTypes.mem_inter.mpr ⟨htype, happlies⟩)]
    exact ⟨_, .keepSpread happlies hmerge .nil, rfl⟩
  · rw [if_neg fun hin => happlies (PossibleTypes.mem_inter.mp hin).2]
    exact ⟨[], .passSpread happlies .nil, rfl⟩

/-- A spread that is looked through: its fragment is recorded before those in its body. -/
theorem Records.mergeSpread (h : Records table options possible before typeCase)
    (hmerge : options.mergeSpreads = true) {head : SpreadSelection} {fragment : Fragment}
    (hget : table.get? head.fragment = some fragment)
    (hn : Records table options (possible ∩ head.possible) fragment.selections.selections nested) :
    Records table options possible (before ++ [.spread head])
      ((typeCase.addSpread options (possible ∩ head.possible) head).merge nested
        (conditionsOf head.directives)) := by
  have hspread := h.toSound.addSpread options (possible ∩ head.possible) head
  have hsub := PossibleTypes.inter_within possible head.possible
  apply h.concat (hspread.merge hn.toSound hsub head.directives)
  intro type htype
  rw [hspread.holdingFor_merge hn.toSound hsub head.directives htype]
  by_cases happlies : type ∈ head.possible
  · have hin : type ∈ possible ∩ head.possible := PossibleTypes.mem_inter.mpr ⟨htype, happlies⟩
    obtain ⟨met, hmet, hrecorded⟩ := hn.fragments type hin
    refine ⟨_, .openSpread happlies hmerge hget hmet .nil, ?_⟩
    rw [if_pos hin, Holding.absorb, hrecorded, foldl_addFragment_of_eraseDups,
      h.toSound.fragments_addSpread options _ head htype, if_pos hin,
      FragmentTable.spreadsMet_openSpread, List.foldl_cons, List.foldl_append]
    rfl
  · have hout : type ∉ possible ∩ head.possible := fun hin =>
      happlies (PossibleTypes.mem_inter.mp hin).2
    refine ⟨[], .passSpread happlies .nil, ?_⟩
    rw [if_neg hout, h.toSound.fragments_addSpread options _ head htype, if_neg hout]
    rfl

/-! ## Inline fragments -/

theorem Records.mergeInline {narrowed : PossibleTypes}
    (h : Records table options possible before typeCase)
    (hn : Records table options (possible ∩ narrowed) inner nested) (head : InlineSelection)
    (parent : String) :
    Records table options possible (before ++ [.inline head ⟨parent, narrowed, inner⟩])
      (typeCase.merge nested (conditionsOf head.directives)) := by
  have hsub := PossibleTypes.inter_within possible narrowed
  apply h.concat (h.toSound.merge hn.toSound hsub head.directives)
  intro type htype
  rw [h.toSound.holdingFor_merge hn.toSound hsub head.directives htype]
  by_cases happlies : type ∈ narrowed
  · have hin : type ∈ possible ∩ narrowed := PossibleTypes.mem_inter.mpr ⟨htype, happlies⟩
    obtain ⟨met, hmet, hrecorded⟩ := hn.fragments type hin
    refine ⟨_, .openInline happlies hmet .nil, ?_⟩
    rw [if_pos hin, Holding.absorb, hrecorded, foldl_addFragment_of_eraseDups, List.append_nil,
      spreadsMet_map_under]
  · rw [if_neg fun hin => happlies (PossibleTypes.mem_inter.mp hin).2]
    exact ⟨[], .passInline happlies .nil, rfl⟩

/-! ## All selections -/

theorem inductive_records (table : FragmentTable) (options : TypeCaseOptions) :
    Inductive table options (Records table options) where
  empty := records_empty table options
  field h := h.addField
  passOver h _ hconforms := h.passOver hconforms
  keepSpread h head hmerge := h.keepSpread hmerge head
  openSpread h _ _ hmerge _ hget hn := h.mergeSpread hmerge hget hn
  inline h head parent hn := h.mergeInline hn head parent

end TypeCase

/-- The partition of a selection set has recorded what is met in the set. -/
theorem FragmentTable.partition_records {table : FragmentTable} {options : TypeCaseOptions}
    {set : SelectionSet} {typeCase : TypeCase} (h : table.partition options set = .ok typeCase) :
    TypeCase.Records table options set.possible set.selections typeCase :=
  (TypeCase.inductive_records table options).partition h

end QueryShape
