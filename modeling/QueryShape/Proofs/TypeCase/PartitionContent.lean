import QueryShape.Proofs.Abridgement
import QueryShape.Proofs.TypeCase.Settled

/-!
# What partitioning puts into variants

Partitioning adds one selection after the other. For every object type the type case holds,
at each moment, what the selections so far select for that type, in order; only what is held
already may be missing where a spread is passed over. The proof follows the recursion of
`TypeCase.add`, and the depth of spreads.

## What this module delivers

- `Holding.Covers`: everything behind a recorded fragment is held.
- `Presents`: a type case presents what is selected for its object types.
- `Presents.addField`, `Presents.addSpread`, `Presents.mergeSpread`, `Presents.mergeInline`:
  one lemma for each way in which a type case grows; `Presents.passOver` for the spreads that
  add nothing.
- `presents_add`, `presents_addAll`, `presents_expansion`: the recursion.
- `FragmentTable.partition_presents`: partitioning succeeds, and its type case presents the
  selection set.
-/

set_option autoImplicit false

namespace QueryShape

/-! ## Covering -/

namespace Holding

variable {holding other : Holding} {behind : FragmentId → List Occurrence}

/-- The items of some occurrences are held. -/
def Holds (holding : Holding) (occurrences : List Occurrence) : Prop :=
  ∀ occurrence ∈ occurrences, occurrence.item ∈ holding.content.map Occurrence.item

/-- Everything behind each recorded fragment is held. -/
def Covers (holding : Holding) (behind : FragmentId → List Occurrence) : Prop :=
  ∀ id ∈ holding.fragments, holding.Holds (behind id)

theorem mem_items_absorb {conditions : List Condition} {item : Item} :
    item ∈ (holding.absorb conditions other).content.map Occurrence.item ↔
      item ∈ holding.content.map Occurrence.item ∨ item ∈ other.content.map Occurrence.item := by
  rw [absorb, List.map_append, List.mem_append, Occurrence.map_item_under]

/-- A fragment may be recorded first and covered by what is absorbed next. -/
theorem Covers.absorb (h : ∀ id ∈ holding.fragments,
      holding.Holds (behind id) ∨ other.Holds (behind id))
    (hother : other.Covers behind) (conditions : List Condition) :
    (holding.absorb conditions other).Covers behind := by
  intro id hid occurrence hoccurrence
  rw [Holding.absorb, mem_foldl_addFragment] at hid
  rw [mem_items_absorb]
  rcases hid with hbefore | hnew
  · exact (h id hbefore).imp (fun hholds => hholds occurrence hoccurrence)
      fun hholds => hholds occurrence hoccurrence
  · exact Or.inr (hother id hnew occurrence hoccurrence)

end Holding

namespace TypeCase

variable {typeCase nested : TypeCase} {request : PossibleTypes} {type : ObjectId}

/-! ## Adding to the holdings of a request -/

section Adding

variable {change : Variant → Variant} {extra : Holding}

theorem holdingFor_changeAll (h : typeCase.WellFormed)
    (hpossible : ∀ variant, (change variant).possible = variant.possible)
    (hholding : ∀ variant, (change variant).holding = variant.holding.absorb [] extra)
    (htype : type ∈ typeCase.default.possible) :
    (typeCase.changeAll request change).holdingFor type =
      if type ∈ request then (typeCase.holdingFor type).absorb [] extra
      else typeCase.holdingFor type := by
  obtain ⟨possible, hvariant⟩ := variantFor_changeAll h hpossible htype
  rw [holdingFor, hvariant]
  split
  · rw [hholding, Variant.holding_restrict, holdingFor]
  · rw [Variant.holding_restrict, holdingFor]

theorem Grounded.changeAll (hg : typeCase.Grounded) (h : typeCase.WellFormed)
    (hpossible : ∀ variant, (change variant).possible = variant.possible)
    (hholding : ∀ variant, (change variant).holding = variant.holding.absorb [] extra) :
    (typeCase.changeAll request change).Grounded := by
  intro type htype
  rw [possible_default_changeAll h hpossible] at htype
  rw [holdingFor_changeAll h hpossible hholding htype]
  by_cases hspans : ∀ other ∈ typeCase.default.possible, other ∈ request
  · rw [default_changeAll_of_spans h hspans, hholding, if_pos (hspans type htype)]
    exact (hg type htype).absorb (Holding.Below.refl extra) []
  · rw [default_changeAll_of_not_spans h hspans]
    split
    · exact (hg type htype).absorb_right [] extra
    · exact hg type htype

theorem Merged.grounded {merged : TypeCase} {conditions : List Condition}
    (h : Merged typeCase nested merged conditions) (hg : typeCase.Grounded)
    (hn : nested.Grounded) : merged.Grounded := by
  intro type htype
  rw [h.possible] at htype
  by_cases hspans : ∀ other ∈ typeCase.default.possible, other ∈ nested.default.possible
  · rw [h.default_of_spans hspans, h.inside type htype (hspans type htype)]
    exact (hg type htype).absorb (hn type (hspans type htype)) conditions
  · rw [h.default_of_not_spans hspans]
    by_cases hin : type ∈ nested.default.possible
    · rw [h.inside type htype hin]
      exact (hg type htype).absorb_right conditions _
    · rw [h.outside type htype hin]
      exact hg type htype

end Adding

/-! ## The invariant -/

variable {table : FragmentTable} {options : TypeCaseOptions} {possible types : PossibleTypes}
  {all all' : ObjectId → List Occurrence}

/-- A type case holds, for each of its object types, all that is selected for it. -/
structure Gathers (options : TypeCaseOptions) (possible : PossibleTypes)
    (all : ObjectId → List Occurrence) (typeCase : TypeCase) : Prop where
  wellFormed : typeCase.WellFormed
  spans : typeCase.default.possible = possible
  capacity : typeCase.HasCapacity possible.capacity
  grounded : typeCase.Grounded
  settled : typeCase.Each (Variant.Settled options)
  content : ∀ type ∈ possible,
    Abridges Occurrence.item (typeCase.holdingFor type).content (all type)

/-- In addition it holds everything behind the fragments that it has recorded. -/
structure Presents (table : FragmentTable) (options : TypeCaseOptions) (possible : PossibleTypes)
    (all : ObjectId → List Occurrence) (typeCase : TypeCase) : Prop
    extends Gathers options possible all typeCase where
  covers : ∀ type ∈ possible, (typeCase.holdingFor type).Covers
    (opened (table.fragmentOccurrences options type) options)

theorem Gathers.congr (h : Gathers options possible all typeCase)
    (hall : ∀ type ∈ possible, all type = all' type) : Gathers options possible all' typeCase :=
  { h with content := fun type htype => hall type htype ▸ h.content type htype }

theorem Presents.congr (h : Presents table options possible all typeCase)
    (hall : ∀ type ∈ possible, all type = all' type) :
    Presents table options possible all' typeCase :=
  ⟨h.toGathers.congr hall, h.covers⟩

theorem presents_empty (table : FragmentTable) (options : TypeCaseOptions) (parent : String)
    (possible : PossibleTypes) :
    Presents table options possible (fun _ => []) (empty parent possible) where
  wellFormed := wellFormed_empty parent possible
  spans := rfl
  capacity := ⟨rfl, fun _ h => absurd h List.not_mem_nil⟩
  grounded := grounded_empty parent possible
  settled := ⟨trivial, fun _ h => absurd h List.not_mem_nil⟩
  content _ _ := .nil
  covers _ _ _ hid := absurd hid List.not_mem_nil

/-- Adding the same to all variants of a request. -/
theorem Gathers.changeAll (h : Gathers options possible all typeCase) {extra : Holding}
    {change : Variant → Variant} (hrequest : request.capacity = possible.capacity)
    (hpossible : ∀ variant, (change variant).possible = variant.possible)
    (hholding : ∀ variant, (change variant).holding = variant.holding.absorb [] extra)
    (hsettled : ∀ variant, variant.Settled options → (change variant).Settled options) :
    Gathers options possible (fun type => all type ++ if type ∈ request then extra.content else [])
      (typeCase.changeAll request change) where
  wellFormed := h.wellFormed.changeAll hpossible
  spans := (possible_default_changeAll h.wellFormed hpossible).trans h.spans
  capacity := h.capacity.changeAll h.wellFormed hrequest hpossible
  grounded := h.grounded.changeAll h.wellFormed hpossible hholding
  settled := by
    refine h.settled.changeAll h.wellFormed (Variant.narrows_settled options) ?_ ?_
    · rw [h.spans, hrequest]
    · intro variant hvariant _
      exact hsettled variant hvariant
  content type htype := by
    rw [holdingFor_changeAll h.wellFormed hpossible hholding (h.spans.symm ▸ htype)]
    split
    · rw [Holding.absorb, Occurrence.under_nil, List.map_id]
      exact (h.content type htype).append (Abridges.refl _ _)
    · rw [List.append_nil]
      exact h.content type htype

/-- Merging a type case for some of the object types. -/
theorem Gathers.merge (h : Gathers options possible all typeCase)
    (hn : Gathers options types all' nested) (hcapacity : types.capacity = possible.capacity)
    (hsub : ∀ type ∈ types, type ∈ possible) (directives : List AppliedDirective) :
    Gathers options possible
        (fun type => all type ++ if type ∈ types then
          (all' type).map (Occurrence.under (conditionsOf directives)) else [])
        (typeCase.merge nested (conditionsOf directives)) ∧
      Merged typeCase nested (typeCase.merge nested (conditionsOf directives))
        (conditionsOf directives) := by
  have hmerged := merged_of_spans h.wellFormed hn.wellFormed hn.grounded h.spans hn.spans hsub
    directives
  have hnested : nested.HasCapacity possible.capacity := hcapacity ▸ hn.capacity
  -- Capacities and settled selections go through the fold, the content object type by object
  -- type.
  refine ⟨⟨hmerged.wellFormed, hmerged.possible.trans h.spans,
    h.capacity.merge h.wellFormed hnested _, hmerged.grounded h.grounded hn.grounded,
    ?_, ?_⟩, hmerged⟩
  · apply h.settled.merge hn.settled h.wellFormed (Variant.narrows_settled options)
      (h.spans.symm ▸ hnested)
    intro before variant hbefore hvariant hwithin
    exact hbefore.absorb hvariant hwithin directives
  · intro type htype
    have houter : type ∈ typeCase.default.possible := h.spans.symm ▸ htype
    by_cases hin : type ∈ types
    · rw [if_pos hin, hmerged.inside type houter (hn.spans.symm ▸ hin)]
      exact (h.content type htype).append
        ((hn.content type hin).map _ fun occurrence => rfl)
    · rw [if_neg hin, List.append_nil, hmerged.outside type houter (hn.spans.symm ▸ hin)]
      exact h.content type htype

/-! ## One selection -/

theorem holding_append_field (head : FieldSelection) (nested : Option SelectionSet)
    (variant : Variant) : (variant.append [.field head nested]).holding =
      variant.holding.absorb [] ⟨[⟨head.conditions, .field head nested⟩], []⟩ := by
  simp [Variant.holding, Holding.absorb, Variant.content, Variant.append,
    Selection.contentIn_append, Selection.contentIn, Selection.content]

theorem Presents.addField (h : Presents table options possible all typeCase)
    (head : FieldSelection) (nested : Option SelectionSet) :
    Presents table options possible
      (fun type => all type ++ [⟨head.conditions, .field head nested⟩])
      (typeCase.addField possible (.field head nested)) := by
  have hholding := holding_append_field head nested
  have hgathers : Gathers options possible _
      (typeCase.changeAll possible (·.append [.field head nested])) :=
    h.toGathers.changeAll rfl (fun variant => Variant.possible_append variant _) hholding
      fun variant hvariant => hvariant.append ⟨trivial, trivial⟩
  refine ⟨hgathers.congr fun type htype => by rw [if_pos htype], fun type htype => ?_⟩
  have hnow : (typeCase.addField possible (.field head nested)).holdingFor type = _ :=
    holdingFor_changeAll h.wellFormed (fun variant => Variant.possible_append variant _) hholding
      (h.spans.symm ▸ htype)
  rw [hnow, if_pos htype]
  exact Holding.Covers.absorb (fun id hid => Or.inl (h.covers type htype id hid))
    (fun id hid => absurd hid List.not_mem_nil) []

/-- What recording a spread adds to the holdings of its object types. -/
def spreadHolding (options : TypeCaseOptions) (head : SpreadSelection) : Holding :=
  ⟨if options.mergeSpreads then [] else [⟨conditionsOf head.directives, .spread head.fragment⟩],
    [head.fragment]⟩

/-- The change that recording a spread makes to a variant. -/
def recordSpread (options : TypeCaseOptions) (head : SpreadSelection) (variant : Variant) :
    Variant :=
  if options.mergeSpreads then variant.conform head.fragment
  else (variant.conform head.fragment).append [.spread head]

theorem possible_recordSpread (head : SpreadSelection) (variant : Variant) :
    (recordSpread options head variant).possible = variant.possible := by
  rw [recordSpread]
  split
  · exact Variant.possible_conform variant _
  · rw [Variant.possible_append, Variant.possible_conform]

theorem holding_recordSpread (head : SpreadSelection) (variant : Variant) :
    (recordSpread options head variant).holding =
      variant.holding.absorb [] (spreadHolding options head) := by
  rw [recordSpread, spreadHolding, Variant.conform_eq]
  split
  · simp [Variant.holding, Holding.absorb, Variant.content]
  · simp [Variant.holding, Holding.absorb, Variant.content, Variant.append,
      Selection.contentIn_append, Selection.contentIn, Selection.content]

theorem settled_recordSpread (head : SpreadSelection) {variant : Variant}
    (h : variant.Settled options) : (recordSpread options head variant).Settled options := by
  rw [recordSpread]
  split
  · exact h.conform head.fragment
  · next hmerge => exact (h.conform head.fragment).append ⟨eq_false_of_ne_true hmerge, trivial⟩

theorem Gathers.addSpread (h : Gathers options possible all typeCase) (head : SpreadSelection)
    (hcapacity : types.capacity = possible.capacity) :
    Gathers options possible
      (fun type => all type ++ if type ∈ types then (spreadHolding options head).content else [])
      (typeCase.addSpread options types head) :=
  h.changeAll hcapacity (possible_recordSpread head) (holding_recordSpread head)
    fun _ => settled_recordSpread head

theorem holdingFor_addSpread (h : Gathers options possible all typeCase) (head : SpreadSelection)
    (htype : type ∈ possible) : (typeCase.addSpread options types head).holdingFor type =
      if type ∈ types then (typeCase.holdingFor type).absorb [] (spreadHolding options head)
      else typeCase.holdingFor type :=
  holdingFor_changeAll h.wellFormed (possible_recordSpread head) (holding_recordSpread head)
    (h.spans.symm ▸ htype)

/-- A spread that stays a spread. -/
theorem Presents.addSpread (h : Presents table options possible all typeCase)
    (head : SpreadSelection) (hcapacity : types.capacity = possible.capacity)
    (hmerge : options.mergeSpreads = false) :
    Presents table options possible
      (fun type => all type ++ if type ∈ types then
        (opened (table.fragmentOccurrences options type) options head.fragment).map
          (Occurrence.under (conditionsOf head.directives)) else [])
      (typeCase.addSpread options types head) := by
  have hopened : ∀ (expand : FragmentId → List Occurrence) id,
      opened expand options id = [⟨[], .spread id⟩] := fun expand id => by simp [opened, hmerge]
  refine ⟨(h.toGathers.addSpread head hcapacity).congr fun type _ => ?_, fun type htype => ?_⟩
  · simp [hopened, spreadHolding, hmerge, Occurrence.under]
  · -- The spread is held as an item of its own, so what is recorded is covered at once.
    rw [holdingFor_addSpread h.toGathers head htype]
    split
    · refine Holding.Covers.absorb (fun id hid => Or.inl (h.covers type htype id hid)) ?_ []
      intro id hid occurrence hoccurrence
      rw [hopened, List.mem_singleton] at hoccurrence
      have hfragment : id = head.fragment := List.mem_singleton.mp hid
      simp [spreadHolding, hmerge, hoccurrence, hfragment]
    · exact h.covers type htype

/-- A spread that is looked through: it is recorded, and its type case is merged. -/
theorem Presents.mergeSpread (h : Presents table options possible all typeCase)
    (head : SpreadSelection) (hcapacity : types.capacity = possible.capacity)
    (hsub : ∀ type ∈ types, type ∈ possible) (hmerge : options.mergeSpreads = true)
    (hn : Presents table options types
      (fun type => table.fragmentOccurrences options type head.fragment) nested) :
    Presents table options possible
      (fun type => all type ++ if type ∈ types then
        (opened (table.fragmentOccurrences options type) options head.fragment).map
          (Occurrence.under (conditionsOf head.directives)) else [])
      ((typeCase.addSpread options types head).merge nested (conditionsOf head.directives)) := by
  have hopened : ∀ (expand : FragmentId → List Occurrence) id,
      opened expand options id = expand id := fun expand id => by simp [opened, hmerge]
  have hspread := h.toGathers.addSpread head hcapacity
  obtain ⟨hgathers, hmerged⟩ := hspread.merge hn.toGathers hcapacity hsub head.directives
  refine ⟨hgathers.congr fun type _ => ?_, fun type htype => ?_⟩
  · simp [hopened, spreadHolding, hmerge]
  · have houter : type ∈ (typeCase.addSpread options types head).default.possible :=
      hspread.spans.symm ▸ htype
    by_cases hin : type ∈ types
    · rw [hmerged.inside type houter (hn.spans.symm ▸ hin),
        holdingFor_addSpread h.toGathers head htype, if_pos hin]
      refine Holding.Covers.absorb (fun id hid => ?_) (hn.covers type hin) _
      rw [Holding.absorb, mem_foldl_addFragment] at hid
      rcases hid with hbefore | hnew
      · -- What was recorded before is covered by what was held before.
        apply Or.inl
        intro occurrence hoccurrence
        rw [Holding.mem_items_absorb]
        exact Or.inl (h.covers type htype id hbefore occurrence hoccurrence)
      · -- The fragment recorded just now is covered by the type case that is merged.
        have hfragment : id = head.fragment := List.mem_singleton.mp hnew
        apply Or.inr
        intro occurrence hoccurrence
        rw [hopened, hfragment] at hoccurrence
        exact (hn.content type hin).mem_map hoccurrence
    · rw [hmerged.outside type houter (hn.spans.symm ▸ hin),
        holdingFor_addSpread h.toGathers head htype, if_neg hin]
      exact h.covers type htype

/-- A spread that is passed over, because its object types conform to the fragment. -/
theorem Presents.passOver (h : Presents table options possible all typeCase)
    {id : FragmentId} (hconforms : typeCase.conformsTo types id = true)
    (hsub : ∀ type ∈ types, type ∈ possible) (conditions : List Condition) :
    Presents table options possible
      (fun type => all type ++ if type ∈ types then
        (opened (table.fragmentOccurrences options type) options id).map
          (Occurrence.under conditions) else []) typeCase := by
  have hrecorded := (h.wellFormed.conformsTo_iff h.grounded
    fun type htype => h.spans.symm ▸ hsub type htype).mp hconforms
  -- What is recorded is covered, so that listing it again leaves out everything.
  refine { h with content := fun type htype => ?_ }
  by_cases hin : type ∈ types
  · rw [if_pos hin]
    apply (h.content type htype).leaveOut_all
    intro occurrence hoccurrence
    obtain ⟨before, hbefore, rfl⟩ := List.mem_map.mp hoccurrence
    rw [Occurrence.item_under]
    exact h.covers type htype id (hrecorded type hin) before hbefore
  · rw [if_neg hin, List.append_nil]
    exact h.content type htype

/-- An inline fragment. -/
theorem Presents.mergeInline (h : Presents table options possible all typeCase)
    (hn : Presents table options types all' nested) (hcapacity : types.capacity = possible.capacity)
    (hsub : ∀ type ∈ types, type ∈ possible) (directives : List AppliedDirective) :
    Presents table options possible
      (fun type => all type ++ if type ∈ types then
        (all' type).map (Occurrence.under (conditionsOf directives)) else [])
      (typeCase.merge nested (conditionsOf directives)) := by
  obtain ⟨hgathers, hmerged⟩ := h.toGathers.merge hn.toGathers hcapacity hsub directives
  refine ⟨hgathers, fun type htype => ?_⟩
  have houter : type ∈ typeCase.default.possible := h.spans.symm ▸ htype
  by_cases hin : type ∈ types
  · rw [hmerged.inside type houter (hn.spans.symm ▸ hin)]
    exact Holding.Covers.absorb (fun id hid => Or.inl (h.covers type htype id hid))
      (hn.covers type hin) _
  · rw [hmerged.outside type houter (hn.spans.symm ▸ hin)]
    exact h.covers type htype

/-! ## The recursion -/

/-- An expansion presents what fragments select. -/
def Expands (table : FragmentTable) (options : TypeCaseOptions) (expand : Expansion)
    (ids : List FragmentId) : Prop :=
  ∀ id ∈ ids, ∀ types, ∃ nested, expand id types = .ok nested ∧
    Presents table options types (fun type => table.fragmentOccurrences options type id) nested

variable {expand : Expansion}

theorem Expands.mono {ids ids' : List FragmentId} (h : Expands table options expand ids)
    (hsub : ∀ id ∈ ids', id ∈ ids) : Expands table options expand ids' :=
  fun id hid => h id (hsub id hid)

mutual

/-- Adding a selection succeeds and presents it after what was presented before. -/
theorem presents_add (selection : Selection) {possible : PossibleTypes} {typeCase : TypeCase}
    {all : ObjectId → List Occurrence} (hexpand : Expands table options expand selection.spreads)
    (h : Presents table options possible all typeCase) :
    ∃ result, add expand options possible typeCase selection = .ok result ∧
      Presents table options possible (fun type => all type ++
        selection.occurrences (table.fragmentOccurrences options type) options type) result := by
  cases selection with
  | field head nested => exact ⟨_, by rw [add], h.addField head nested⟩
  | spread head =>
      have hsub : ∀ type ∈ possible ∩ head.possible, type ∈ possible :=
        fun type htype => (PossibleTypes.mem_inter.mp htype).1
      have hcapacity : (possible ∩ head.possible).capacity = possible.capacity := rfl
      -- Within the possible types, the request is where the spread applies.
      have hall : ∀ type ∈ possible, (all type ++ if type ∈ possible ∩ head.possible then
            (opened (table.fragmentOccurrences options type) options head.fragment).map
              (Occurrence.under (conditionsOf head.directives)) else []) =
          all type ++ (Selection.spread head).occurrences
            (table.fragmentOccurrences options type) options type := by
        intro type htype
        simp only [Selection.occurrences, PossibleTypes.mem_inter, htype, true_and]
      rw [add]
      by_cases hconforms : typeCase.conformsTo (possible ∩ head.possible) head.fragment = true
      · rw [if_pos hconforms]
        exact ⟨typeCase, rfl, (h.passOver hconforms hsub _).congr hall⟩
      · rw [if_neg hconforms]
        by_cases hmerge : options.mergeSpreads = true
        · obtain ⟨nested, hnested, hpresents⟩ := hexpand head.fragment
            (by rw [Selection.spreads]; exact List.mem_singleton_self _) (possible ∩ head.possible)
          rw [if_pos hmerge, hnested]
          exact ⟨_, rfl, (h.mergeSpread head hcapacity hsub hmerge hpresents).congr hall⟩
        · rw [if_neg hmerge]
          exact ⟨_, rfl, (h.addSpread head hcapacity (eq_false_of_ne_true hmerge)).congr hall⟩
  | inline head set =>
      obtain ⟨parent, narrowed, selections⟩ := set
      obtain ⟨nested, hnested, hpresents⟩ := presents_addAll selections
        (hexpand.mono fun id hid => by rwa [Selection.spreads])
        (presents_empty table options parent (possible ∩ narrowed))
      rw [add, hnested]
      refine ⟨_, rfl, (h.mergeInline hpresents rfl (fun type htype =>
        (PossibleTypes.mem_inter.mp htype).1) head.directives).congr fun type htype => ?_⟩
      simp only [Selection.occurrences, PossibleTypes.mem_inter, htype, true_and, List.nil_append]

/-- Adding selections, one after the other. -/
theorem presents_addAll (selections : List Selection) {possible : PossibleTypes}
    {typeCase : TypeCase} {all : ObjectId → List Occurrence}
    (hexpand : Expands table options expand (Selection.spreadsIn selections))
    (h : Presents table options possible all typeCase) :
    ∃ result, addAll expand options possible typeCase selections = .ok result ∧
      Presents table options possible (fun type => all type ++
        Selection.occurrencesIn (table.fragmentOccurrences options type) options type
          selections) result := by
  cases selections with
  | nil => exact ⟨typeCase, by rw [addAll], h.congr fun type _ => by
      rw [Selection.occurrencesIn, List.append_nil]⟩
  | cons selection rest =>
      obtain ⟨middle, hfirst, hmiddle⟩ := presents_add selection
        (hexpand.mono fun id hid => List.mem_append_left _ hid) h
      obtain ⟨result, hrest, hresult⟩ := presents_addAll rest
        (hexpand.mono fun id hid => List.mem_append_right _ hid) hmiddle
      refine ⟨result, ?_, hresult.congr fun type _ => ?_⟩
      · rw [addAll, hfirst]
        exact hrest
      · rw [Selection.occurrencesIn, List.append_assoc]

end

/-- In an ordered table the type case of a fragment presents the fragment, for every depth
above its number. -/
theorem presents_expansion (h : table.Ordered) (id : FragmentId) :
    ∀ {depth : Nat}, id < depth → id < table.size → ∀ types, ∃ nested,
      table.expansion options depth id types = .ok nested ∧
      Presents table options types (fun type => table.fragmentOccurrences options type id)
        nested := by
  -- A fragment spreads earlier ones only, so they are expanded within the depth that is left.
  induction id using Nat.strongRecOn with
  | ind id ih =>
      intro depth hdepth hsize types
      cases depth with
      | zero => exact absurd hdepth (Nat.not_lt_zero id)
      | succ depth =>
          obtain ⟨fragment, hget⟩ := FragmentTable.get?_eq_some_of_lt hsize
          have hexpand : Expands table options (table.expansion options depth)
              (Selection.spreadsIn fragment.selections.selections) := by
            intro spread hspread
            have hlt : spread < id := h id fragment hget spread hspread
            exact ih spread hlt (Nat.lt_of_lt_of_le hlt (Nat.le_of_lt_succ hdepth))
              (Nat.lt_trans hlt hsize)
          obtain ⟨nested, hnested, hpresents⟩ := presents_addAll fragment.selections.selections
            hexpand (presents_empty table options fragment.typeCondition types)
          refine ⟨nested, ?_, hpresents.congr fun type _ => ?_⟩
          · rw [FragmentTable.expansion, FragmentTable.resolve_eq_ok.mpr hget]
            exact hnested
          · rw [FragmentTable.fragmentOccurrences_eq h hget, List.nil_append]
            rfl

end TypeCase

/-- Partitioning a selection set succeeds, and its type case presents the selection set. -/
theorem FragmentTable.partition_presents {table : FragmentTable} (h : table.Ordered)
    (options : TypeCaseOptions) {set : SelectionSet} (hset : table.Resolves set) :
    ∃ typeCase, table.partition options set = .ok typeCase ∧
      TypeCase.Presents table options set.possible
        (fun type => table.occurrences options type set) typeCase := by
  have hexpand : TypeCase.Expands table options (table.expansion options table.size)
      (Selection.spreadsIn set.selections) := by
    intro id hid types
    exact TypeCase.presents_expansion h id (hset id hid) (hset id hid) types
  obtain ⟨typeCase, hpartition, hpresents⟩ :=
    TypeCase.presents_addAll set.selections hexpand
      (TypeCase.presents_empty table options set.parent set.possible)
  refine ⟨typeCase, hpartition, hpresents.congr fun type _ => ?_⟩
  rw [List.nil_append, FragmentTable.occurrences]

end QueryShape
