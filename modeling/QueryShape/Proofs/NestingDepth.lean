import QueryShape.Proofs.Executable.SelectionSets
import QueryShape.TypeCase.ResponseShape

/-!
# How deep fields are nested

A field of a composite type has nested selections, and these may spread fragments with further
fields. In an ordered table fragments do not lead back to themselves, so there is a bound on how
deep fields are nested, fragments looked through. The bound is what a response shape goes down by
with every turn.

## What this module delivers

- `FragmentTable.NestsWithin`: all spreads at or under a selection resolve, and fields are nested at
  most so deep.
- `nestsWithin_height`: the height of selections and the depth of what they spread add up.
- `FragmentTable.nestsWithin_shapeDepth`: the bound by which response shapes are computed.
- `FragmentTable.NestsWithin.nestsBelow`: what the fields that are selected for an object type nest.
-/

set_option autoImplicit false

namespace QueryShape

/-- Every spread at or under a selection leads to a fragment, and fields are nested at most so deep,
fragments looked through. -/
inductive FragmentTable.NestsWithin (table : FragmentTable) : Nat → Selection → Prop
  | leaf (depth : Nat) (head : FieldSelection) : table.NestsWithin depth (.field head none)
  | composite {depth : Nat} {set : SelectionSet} (head : FieldSelection) :
      (∀ selection ∈ set.selections, table.NestsWithin depth selection) →
      table.NestsWithin (depth + 1) (.field head (some set))
  | spread {depth : Nat} {head : SpreadSelection} {fragment : Fragment} :
      table.get? head.fragment = some fragment →
      (∀ selection ∈ fragment.selections.selections, table.NestsWithin depth selection) →
      table.NestsWithin depth (.spread head)
  | inline {depth : Nat} {set : SelectionSet} (head : InlineSelection) :
      (∀ selection ∈ set.selections, table.NestsWithin depth selection) →
      table.NestsWithin depth (.inline head set)

namespace FragmentTable

/-- The same of all selections. -/
abbrev AllNestWithin (table : FragmentTable) (depth : Nat) (selections : List Selection) : Prop :=
  ∀ selection ∈ selections, table.NestsWithin depth selection

variable {table : FragmentTable} {depth depth' : Nat}

/-- A bound may be raised. -/
theorem NestsWithin.mono {selection : Selection} (h : table.NestsWithin depth selection)
    (hle : depth ≤ depth') : table.NestsWithin depth' selection := by
  induction h generalizing depth' with
  | leaf depth head => exact .leaf depth' head
  | composite head _ ih =>
      obtain ⟨below, rfl⟩ := Nat.exists_eq_succ_of_ne_zero
        (Nat.pos_iff_ne_zero.mp (Nat.zero_lt_of_lt hle))
      exact .composite head fun selection hmem => ih selection hmem (Nat.le_of_succ_le_succ hle)
  | spread hget _ ih => exact .spread hget fun selection hmem => ih selection hmem hle
  | inline head _ ih => exact .inline head fun selection hmem => ih selection hmem hle

theorem AllNestWithin.mono {selections : List Selection}
    (h : table.AllNestWithin depth selections) (hle : depth ≤ depth') :
    table.AllNestWithin depth' selections :=
  fun selection hmem => (h selection hmem).mono hle

theorem mem_spreadsIn_iff {selections : List Selection} {id : FragmentId} :
    id ∈ Selection.spreadsIn selections ↔ ∃ selection ∈ selections, id ∈ selection.spreads := by
  induction selections with
  | nil => simp [Selection.spreadsIn]
  | cons first rest ih => simp [Selection.spreadsIn, ih]

/-- What is bounded resolves. -/
theorem NestsWithin.lt_size {selection : Selection} (h : table.NestsWithin depth selection) :
    ∀ id ∈ selection.spreads, id < table.size := by
  induction h with
  | leaf => exact fun _ hid => absurd hid List.not_mem_nil
  | @composite depth set head _ ih =>
      obtain ⟨parent, possible, selections⟩ := set
      intro id hid
      obtain ⟨selection, hmem, hid⟩ := mem_spreadsIn_iff.mp hid
      exact ih selection hmem id hid
  | spread hget _ _ =>
      intro id hid
      obtain rfl := List.mem_singleton.mp hid
      exact lt_size_of_get?_eq_some hget
  | @inline depth set head _ ih =>
      obtain ⟨parent, possible, selections⟩ := set
      intro id hid
      obtain ⟨selection, hmem, hid⟩ := mem_spreadsIn_iff.mp hid
      exact ih selection hmem id hid

theorem AllNestWithin.resolves {set : SelectionSet}
    (h : table.AllNestWithin depth set.selections) : table.Resolves set := by
  intro id hid
  obtain ⟨selection, hmem, hid⟩ := mem_spreadsIn_iff.mp hid
  exact (h selection hmem).lt_size id hid

/-! ## The bound -/

mutual

/-- Fields are nested as deep as the height of a selection says, and then as deep as in the
fragments that it spreads. -/
theorem nestsWithin_height (selection : Selection)
    (h : ∀ id ∈ selection.spreads, ∃ fragment, table.get? id = some fragment ∧
      table.AllNestWithin depth fragment.selections.selections) :
    table.NestsWithin (selection.height + depth) selection := by
  cases selection with
  | field head nested =>
      cases nested with
      | none => exact .leaf _ head
      | some set =>
          obtain ⟨parent, possible, selections⟩ := set
          rw [Selection.height, Nat.add_right_comm]
          exact .composite head (allNestWithin_height selections h)
  | spread head =>
      obtain ⟨fragment, hget, hall⟩ := h head.fragment (List.mem_singleton_self _)
      exact .spread hget (hall.mono (Nat.le_add_left _ _))
  | inline head set =>
      obtain ⟨parent, possible, selections⟩ := set
      rw [Selection.height]
      exact .inline head (allNestWithin_height selections h)

theorem allNestWithin_height (selections : List Selection)
    (h : ∀ id ∈ Selection.spreadsIn selections, ∃ fragment, table.get? id = some fragment ∧
      table.AllNestWithin depth fragment.selections.selections) :
    table.AllNestWithin (Selection.heightIn selections + depth) selections := by
  cases selections with
  | nil => exact fun _ hmem => absurd hmem List.not_mem_nil
  | cons first rest =>
      have hfirst := nestsWithin_height first fun id hid => h id (List.mem_append_left _ hid)
      have hrest := allNestWithin_height rest fun id hid => h id (List.mem_append_right _ hid)
      rw [Selection.heightIn]
      refine List.forall_mem_cons.mpr ⟨?_, ?_⟩
      · exact hfirst.mono (Nat.add_le_add_right (Nat.le_max_left _ _) depth)
      · exact hrest.mono (Nat.add_le_add_right (Nat.le_max_right _ _) depth)

end

/-- The heights of some fragments, added to a number. -/
def addHeights (start : Nat) (fragments : List Fragment) : Nat :=
  fragments.foldl
    (fun total fragment => total + Selection.heightIn fragment.selections.selections) start

theorem addHeights_eq (start : Nat) (fragments : List Fragment) :
    addHeights start fragments = start + addHeights 0 fragments := by
  induction fragments generalizing start with
  | nil => rfl
  | cons fragment fragments ih =>
      have hstart := ih (start + Selection.heightIn fragment.selections.selections)
      have hzero := ih (0 + Selection.heightIn fragment.selections.selections)
      simp only [addHeights, List.foldl_cons] at hstart hzero ⊢
      omega

/-- A fragment adds its height to those of the fragments before it. -/
theorem addHeights_take_succ {id : FragmentId} {fragment : Fragment}
    (hget : table.get? id = some fragment) :
    addHeights 0 (table.fragments.take (id + 1)) =
      addHeights 0 (table.fragments.take id) +
        Selection.heightIn fragment.selections.selections := by
  rw [List.take_add_one, show table.fragments[id]? = some fragment from hget, addHeights,
    List.foldl_append]
  rfl

theorem addHeights_take_mono {first second : Nat} (hle : first ≤ second) :
    addHeights 0 (table.fragments.take first) ≤ addHeights 0 (table.fragments.take second) := by
  induction hle with
  | refl => exact Nat.le_refl _
  | @step second _ ih =>
      refine Nat.le_trans ih ?_
      cases hget : table.get? second with
      | some fragment => exact addHeights_take_succ hget ▸ Nat.le_add_right _ _
      | none =>
          have hend : table.fragments.length ≤ second := List.getElem?_eq_none_iff.mp hget
          apply Nat.le_of_eq
          rw [List.take_of_length_le hend, List.take_of_length_le (Nat.le_succ_of_le hend)]

/-- In an ordered table a fragment nests fields as deep as the heights up to its own allow. -/
theorem allNestWithin_fragment (h : table.Ordered) (id : FragmentId) {fragment : Fragment}
    (hget : table.get? id = some fragment) :
    table.AllNestWithin (addHeights 0 (table.fragments.take (id + 1)))
      fragment.selections.selections := by
  -- Fragments spread earlier ones, whose heights are among those counted before.
  induction id using Nat.strongRecOn generalizing fragment with
  | ind id ih =>
      rw [addHeights_take_succ hget, Nat.add_comm]
      apply allNestWithin_height
      intro spread hspread
      have hlt : spread < id := h id fragment hget spread hspread
      obtain ⟨inner, hinner⟩ := get?_eq_some_of_lt (h.resolves hget spread hspread)
      exact ⟨inner, hinner, (ih spread hlt hinner).mono (addHeights_take_mono hlt)⟩

/-- Fields of a selection set that resolves are nested less deep than the bound for its shape. -/
theorem nestsWithin_shapeDepth (h : table.Ordered) {set : SelectionSet}
    (hset : table.Resolves set) :
    ∃ depth, depth < table.shapeDepth set ∧ table.AllNestWithin depth set.selections := by
  refine ⟨Selection.heightIn set.selections + addHeights 0 table.fragments, ?_, ?_⟩
  · have hdepth : table.shapeDepth set =
        addHeights (Selection.heightIn set.selections + 1) table.fragments := rfl
    rw [hdepth, addHeights_eq (Selection.heightIn set.selections + 1)]
    omega
  · apply allNestWithin_height
    intro id hid
    obtain ⟨fragment, hget⟩ := get?_eq_some_of_lt (hset id hid)
    have hall := allNestWithin_fragment h id hget
    refine ⟨fragment, hget, hall.mono ?_⟩
    calc addHeights 0 (table.fragments.take (id + 1))
        ≤ addHeights 0 (table.fragments.take table.fragments.length) :=
          addHeights_take_mono (hset id hid)
      _ = addHeights 0 table.fragments := by rw [List.take_length]

/-! ## What selected fields nest -/

/-- The nested selections of an item, if it has any, nest fields less deep. -/
def NestsBelow (table : FragmentTable) (depth : Nat) (item : Item) : Prop :=
  ∀ head set, item = .field head (some set) →
    ∃ inner, inner < depth ∧ table.AllNestWithin inner set.selections

theorem mem_occurrencesIn_iff {expand : FragmentId → List Occurrence} {options : TypeCaseOptions}
    {type : ObjectId} {selections : List Selection} {occurrence : Occurrence} :
    occurrence ∈ Selection.occurrencesIn expand options type selections ↔
      ∃ selection ∈ selections, occurrence ∈ selection.occurrences expand options type := by
  induction selections with
  | nil => simp [Selection.occurrencesIn]
  | cons first rest ih => simp [Selection.occurrencesIn, ih]

/-- Whatever is selected for an object type nests fields less deep than the selection. -/
theorem NestsWithin.nestsBelow (hordered : table.Ordered) {options : TypeCaseOptions}
    {type : ObjectId} {selection : Selection} (h : table.NestsWithin depth selection) :
    ∀ occurrence ∈ selection.occurrences (table.fragmentOccurrences options type) options type,
      table.NestsBelow depth occurrence.item := by
  induction h with
  | leaf depth head =>
      intro occurrence hmem other set hitem
      obtain rfl := List.mem_singleton.mp hmem
      exact nomatch hitem
  | @composite depth set head hall _ =>
      intro occurrence hmem other nested hitem
      obtain rfl := List.mem_singleton.mp hmem
      cases hitem
      exact ⟨depth, Nat.lt_succ_self depth, hall⟩
  | @spread depth head fragment hget _ ih =>
      intro occurrence hmem
      rw [Selection.occurrences] at hmem
      split at hmem
      · obtain ⟨before, hbefore, rfl⟩ := List.mem_map.mp hmem
        rw [Occurrence.item_under]
        rw [opened] at hbefore
        split at hbefore
        · rw [fragmentOccurrences_eq hordered hget] at hbefore
          obtain ⟨selection, hselection, hbefore⟩ := mem_occurrencesIn_iff.mp hbefore
          exact ih selection hselection before hbefore
        · -- A spread that is not looked through is no field.
          obtain rfl := List.mem_singleton.mp hbefore
          exact fun _ _ hitem => nomatch hitem
      · exact absurd hmem List.not_mem_nil
  | @inline depth set head _ ih =>
      obtain ⟨parent, possible, selections⟩ := set
      intro occurrence hmem
      rw [Selection.occurrences] at hmem
      split at hmem
      · obtain ⟨before, hbefore, rfl⟩ := List.mem_map.mp hmem
        obtain ⟨selection, hselection, hbefore⟩ := mem_occurrencesIn_iff.mp hbefore
        exact ih selection hselection before hbefore
      · exact absurd hmem List.not_mem_nil

end FragmentTable

end QueryShape
