import QueryShape.Proofs.Partition
import QueryShape.Proofs.SucceedAlike
import QueryShape.Proofs.TypeCase.Resemblance

/-!
# Conditions do not influence the partition

Selections under a condition are put under it again when they are merged, so conditions show in what
the variants select. They do not show in the division itself. Selection sets that differ in their
directives alone, at any depth and in fragments as well, are partitioned in step: after every
selection the two type cases resemble each other.

## What this module delivers

- `SelectionSet.plain`, `FragmentTable.plain`: selections and fragments with no directives in them.
  What else follows from where and how they were written, such as locations, is left out as well.
- `resembles_add`, `resembles_addAll`, `resembles_expansion`: the recursion.
- `FragmentTable.partition_resembles`: partitions of selection sets that are plainly the same.
- `Schema.partition_plain`: for compiled selection sets, the variants have the same object types and
  the same fragments, position by position.
-/

set_option autoImplicit false

namespace QueryShape

/-! ## Plain selections -/

/-- A field without directives and location. -/
def FieldSelection.plain (head : FieldSelection) : FieldSelection :=
  { head with directives := [], location := default }

/-- A spread without directives and location. -/
def SpreadSelection.plain (head : SpreadSelection) : SpreadSelection :=
  { head with directives := [], location := default }

/-- An inline fragment without directives and location. -/
def InlineSelection.plain (head : InlineSelection) : InlineSelection :=
  { head with directives := [], location := default }

mutual

/-- A selection without directives, neither its own nor nested ones, and without locations. -/
def Selection.plain : Selection → Selection
  | .field head none => .field head.plain none
  | .field head (some ⟨parent, possible, selections⟩) =>
      .field head.plain (some ⟨parent, possible, Selection.plainAll selections⟩)
  | .spread head => .spread head.plain
  | .inline head ⟨parent, possible, selections⟩ =>
      .inline head.plain ⟨parent, possible, Selection.plainAll selections⟩

/-- Selections without directives and locations. -/
def Selection.plainAll : List Selection → List Selection
  | [] => []
  | selection :: rest => selection.plain :: Selection.plainAll rest

end

/-- A selection set without directives and locations. -/
def SelectionSet.plain (set : SelectionSet) : SelectionSet :=
  { set with selections := Selection.plainAll set.selections }

/-- A fragment without directives and locations, and without its text, which would show them. -/
def Fragment.plain (fragment : Fragment) : Fragment :=
  { fragment with
    directives := [], selections := fragment.selections.plain
    source := "", file := none, location := default }

/-- A table of fragments without directives and locations. -/
def FragmentTable.plain (table : FragmentTable) : FragmentTable :=
  .ofFragments (table.fragments.map Fragment.plain)

theorem FragmentTable.get?_plain (table : FragmentTable) (id : FragmentId) :
    table.plain.get? id = (table.get? id).map Fragment.plain :=
  List.getElem?_map

namespace Selection

theorem plain_field (head : FieldSelection) (nested : Option SelectionSet) :
    (Selection.field head nested).plain = .field head.plain (nested.map SelectionSet.plain) := by
  cases nested with
  | none => rw [plain, Option.map_none]
  | some set =>
      obtain ⟨parent, possible, selections⟩ := set
      rw [plain, Option.map_some, SelectionSet.plain]

theorem plain_spread (head : SpreadSelection) :
    (Selection.spread head).plain = .spread head.plain := by
  rw [plain]

theorem plain_inline (head : InlineSelection) (set : SelectionSet) :
    (Selection.inline head set).plain = .inline head.plain set.plain := by
  obtain ⟨parent, possible, selections⟩ := set
  rw [plain, SelectionSet.plain]

mutual

theorem plain_plain (selection : Selection) : selection.plain.plain = selection.plain := by
  cases selection with
  | field head nested =>
      cases nested with
      | none => rfl
      | some set =>
          obtain ⟨parent, possible, selections⟩ := set
          rw [plain, plain, plainAll_plainAll selections]
          rfl
  | spread head => rfl
  | inline head set =>
      obtain ⟨parent, possible, selections⟩ := set
      rw [plain, plain, plainAll_plainAll selections]
      rfl

theorem plainAll_plainAll (selections : List Selection) :
    plainAll (plainAll selections) = plainAll selections := by
  cases selections with
  | nil => rfl
  | cons selection rest =>
      rw [plainAll, plainAll, plain_plain selection, plainAll_plainAll rest]

end

/-- What is plainly the same as a field is a field. -/
theorem exists_field_of_plain_eq {head : FieldSelection} {nested : Option SelectionSet}
    {other : Selection} (h : (Selection.field head nested).plain = other.plain) :
    ∃ head' nested', other = .field head' nested' := by
  rw [plain_field] at h
  cases other with
  | field head' nested' => exact ⟨head', nested', rfl⟩
  | spread head' =>
      rw [plain_spread] at h
      exact nomatch h
  | inline head' set' =>
      rw [plain_inline] at h
      exact nomatch h

/-- What is plainly the same as a spread is a spread of the same fragment, for the same object
types. -/
theorem exists_spread_of_plain_eq {head : SpreadSelection} {other : Selection}
    (h : (Selection.spread head).plain = other.plain) :
    ∃ head', other = .spread head' ∧ head.fragment = head'.fragment ∧
      head.possible = head'.possible := by
  rw [plain_spread] at h
  cases other with
  | field head' nested' =>
      rw [plain_field] at h
      exact nomatch h
  | spread head' =>
      rw [plain_spread] at h
      have hhead : head.plain = head'.plain := Selection.spread.inj h
      have hfragment : head.plain.fragment = head'.plain.fragment := by rw [hhead]
      have hpossible : head.plain.possible = head'.plain.possible := by rw [hhead]
      exact ⟨head', rfl, hfragment, hpossible⟩
  | inline head' set' =>
      rw [plain_inline] at h
      exact nomatch h

/-- What is plainly the same as an inline fragment is one with plainly the same selections. -/
theorem exists_inline_of_plain_eq {head : InlineSelection} {set : SelectionSet}
    {other : Selection} (h : (Selection.inline head set).plain = other.plain) :
    ∃ head' set', other = .inline head' set' ∧ set.plain = set'.plain := by
  rw [plain_inline] at h
  cases other with
  | field head' nested' =>
      rw [plain_field] at h
      exact nomatch h
  | spread head' =>
      rw [plain_spread] at h
      exact nomatch h
  | inline head' set' =>
      rw [plain_inline] at h
      exact ⟨head', set', rfl, (Selection.inline.inj h).2⟩

end Selection

theorem SelectionSet.plain_plain (set : SelectionSet) : set.plain.plain = set.plain := by
  rw [plain, plain, Selection.plainAll_plainAll]

theorem FragmentTable.plain_plain (table : FragmentTable) : table.plain.plain = table.plain := by
  rw [plain, plain, ofFragments, ofFragments, List.map_map]
  refine eq_of_fragments (List.map_congr_left fun fragment _ => ?_)
  rw [Function.comp_apply, Fragment.plain, Fragment.plain, SelectionSet.plain_plain]

namespace TypeCase

variable {options : TypeCaseOptions} {expand expand' : Expansion}

/-! ## One selection -/

theorem Resembles.addField {typeCase typeCase' : TypeCase} (h : typeCase.Resembles typeCase')
    (possible : PossibleTypes) (selection selection' : Selection) :
    (typeCase.addField possible selection).Resembles (typeCase'.addField possible selection') :=
  h.changeAll fun _ _ hvariant => hvariant.append (List.cons_ne_nil _ _) (List.cons_ne_nil _ _)

theorem Resembles.addSpread {typeCase typeCase' : TypeCase} (h : typeCase.Resembles typeCase')
    (options : TypeCaseOptions) (types : PossibleTypes) {head head' : SpreadSelection}
    (hfragment : head.fragment = head'.fragment) :
    (typeCase.addSpread options types head).Resembles
      (typeCase'.addSpread options types head') := by
  apply h.changeAll
  intro left right hvariant
  have hconform := hvariant.conform head'.fragment
  rw [hfragment]
  split
  · exact hconform
  · exact hconform.append (List.cons_ne_nil _ _) (List.cons_ne_nil _ _)

/-! ## The recursion -/

mutual

/-- Selections that are plainly the same are added in step. -/
theorem resembles_add
    (hexpand : ∀ id types, SucceedAlike Resembles (expand id types) (expand' id types))
    (selection : Selection) {selection' : Selection} (hplain : selection.plain = selection'.plain)
    (possible : PossibleTypes) {typeCase typeCase' : TypeCase} (h : typeCase.Resembles typeCase') :
    SucceedAlike Resembles (add expand options possible typeCase selection)
      (add expand' options possible typeCase' selection') := by
  cases selection with
  | field head nested =>
      obtain ⟨head', nested', rfl⟩ := Selection.exists_field_of_plain_eq hplain
      rw [add, add]
      exact .ok (h.addField possible _ _)
  | spread head =>
      obtain ⟨head', rfl, hfragment, hpossible⟩ := Selection.exists_spread_of_plain_eq hplain
      have hspread := h.addSpread options (possible ∩ head'.possible) hfragment
      rw [add, add, hfragment, hpossible, h.conformsTo_eq]
      -- Whether the spread is passed over is the same question on both sides.
      split
      · exact .ok h
      · split
        · exact (hexpand head'.fragment _).bind fun _ _ hnested => .ok (hspread.merge hnested _ _)
        · exact .ok hspread
  | inline head set =>
      obtain ⟨head', ⟨parent', narrowed', selections'⟩, rfl, hset⟩ :=
        Selection.exists_inline_of_plain_eq hplain
      obtain ⟨parent, narrowed, selections⟩ := set
      simp only [SelectionSet.plain, SelectionSet.mk.injEq] at hset
      obtain ⟨rfl, rfl, hselections⟩ := hset
      rw [add, add]
      exact (resembles_addAll hexpand selections hselections _ (resembles_empty _ _ _)).bind
        fun _ _ hnested => .ok (h.merge hnested _ _)

/-- The same for selections, one after the other. -/
theorem resembles_addAll
    (hexpand : ∀ id types, SucceedAlike Resembles (expand id types) (expand' id types))
    (selections : List Selection) {selections' : List Selection}
    (hplain : Selection.plainAll selections = Selection.plainAll selections')
    (possible : PossibleTypes) {typeCase typeCase' : TypeCase} (h : typeCase.Resembles typeCase') :
    SucceedAlike Resembles (addAll expand options possible typeCase selections)
      (addAll expand' options possible typeCase' selections') := by
  cases selections with
  | nil =>
      cases selections' with
      | nil =>
          rw [addAll, addAll]
          exact .ok h
      | cons first' rest' => simp [Selection.plainAll] at hplain
  | cons first rest =>
      cases selections' with
      | nil => simp [Selection.plainAll] at hplain
      | cons first' rest' =>
          simp only [Selection.plainAll, List.cons.injEq] at hplain
          rw [addAll, addAll]
          exact (resembles_add hexpand first hplain.1 possible h).bind fun _ _ hnext =>
            resembles_addAll hexpand rest hplain.2 possible hnext

end

/-- Fragments are expanded in step, down to every depth. -/
theorem resembles_expansion {table table' : FragmentTable} (htable : table.plain = table'.plain)
    (depth : Nat) (id : FragmentId) (types : PossibleTypes) :
    SucceedAlike Resembles (table.expansion options depth id types)
      (table'.expansion options depth id types) := by
  induction depth generalizing id types with
  | zero =>
      rw [FragmentTable.expansion, FragmentTable.expansion]
      exact .error _ _
  | succ depth ih =>
      have hget : (table.get? id).map Fragment.plain = (table'.get? id).map Fragment.plain := by
        rw [← FragmentTable.get?_plain, htable, FragmentTable.get?_plain]
      rw [FragmentTable.expansion, FragmentTable.expansion, FragmentTable.resolve,
        FragmentTable.resolve]
      cases hfragment : table.get? id with
      | none =>
          rw [hfragment, Option.map_none, eq_comm, Option.map_eq_none_iff] at hget
          rw [hget]
          exact .error _ _
      | some fragment =>
          rw [hfragment, Option.map_some, eq_comm, Option.map_eq_some_iff] at hget
          obtain ⟨fragment', hfragment', hplain⟩ := hget
          rw [hfragment']
          have hselections : fragment'.selections.plain = fragment.selections.plain :=
            congrArg Fragment.selections hplain
          exact resembles_addAll ih _ (congrArg SelectionSet.selections hselections.symm) types
            (resembles_empty _ _ types)

end TypeCase

/-- Selection sets that are plainly the same are partitioned in step. -/
theorem FragmentTable.partition_resembles {table table' : FragmentTable}
    (htable : table.plain = table'.plain) {set set' : SelectionSet} (hset : set.plain = set'.plain)
    (options : TypeCaseOptions) :
    SucceedAlike TypeCase.Resembles (table.partition options set)
      (table'.partition options set') := by
  have hsize : table.size = table'.size := by
    simpa [FragmentTable.plain, FragmentTable.ofFragments, FragmentTable.size]
      using congrArg (fun plain => plain.fragments.length) htable
  have hpossible : set.plain.possible = set'.plain.possible := by rw [hset]
  have hpossible : set.possible = set'.possible := hpossible
  rw [partition, partition, hsize, hpossible]
  exact TypeCase.resembles_addAll (TypeCase.resembles_expansion htable _) _
    (congrArg SelectionSet.selections hset) _ (TypeCase.resembles_empty _ _ _)

/-! ## Compiled selection sets -/

/-- What the division says about a variant: its object types, and the fragments recorded for
them. -/
def Variant.label (variant : Variant) : PossibleTypes × List FragmentId :=
  (variant.possible, variant.fragments)

theorem Variant.Resembles.label_eq {left right : Variant} (h : left.Resembles right) :
    left.label = right.label :=
  Prod.ext h.possible h.fragments

/-- What differs from a compiled selection set in directives alone, together with its fragments, is
divided alike: the exhaustive variants have the same object types and the same fragments, position
by position, and the default variants do too. -/
theorem Schema.partition_plain {schema : Schema} {texts : List SourceText}
    {document : CompiledDocument} {set set' : SelectionSet} {table' : FragmentTable}
    (h : schema.compile texts = .ok document) (hhas : document.Has set)
    (hset : set.plain = set'.plain) (htable : document.fragments.plain = table'.plain)
    (options : TypeCaseOptions) :
    ∃ typeCase typeCase', document.fragments.partition options set = .ok typeCase ∧
      table'.partition options set' = .ok typeCase' ∧
      typeCase.exhaustive.map Variant.label = typeCase'.exhaustive.map Variant.label ∧
      typeCase.default.label = typeCase'.default.label := by
  obtain ⟨definitions, hfrom⟩ := Schema.compile_spec h
  obtain ⟨typeCase, hpartition, -⟩ := hfrom.partition_presents hhas options
  obtain ⟨typeCase', hpartition', hresembles⟩ :=
    (FragmentTable.partition_resembles htable hset options).exists_ok hpartition
  refine ⟨typeCase, typeCase', hpartition, hpartition', ?_, hresembles.default.label_eq⟩
  have hlabels : List.Forall₂ Eq (typeCase.exhaustive.map Variant.label)
      (typeCase'.exhaustive.map Variant.label) :=
    List.rel_map (fun _ _ hvariant => hvariant.label_eq) hresembles.exhaustive
  exact List.forall₂_eq_eq_eq ▸ hlabels

/-- `query Q { node { ... on Post @include(if: $more) { post: id } ...F @include(if: $rest) } }`,
with the field `id` under the key `behind` in `F`. -/
def Sample.conditional : List SourceText :=
  query [node [] [inline ["more"] (some "Post") [id (some "post")], spread ["rest"] "F"]]
    [("F", [id (some "behind")])]

theorem Schema.partition_plain_sample : ∃ document set,
    Sample.schema.compile Sample.conditional = .ok document ∧ document.Has set ∧
      (∃ selection ∈ set.selections, selection.conditions ≠ []) ∧
      set.plain = set.plain.plain ∧ document.fragments.plain = document.fragments.plain.plain ∧
      ∃ typeCase typeCase', document.fragments.partition .standard set = .ok typeCase ∧
        document.fragments.plain.partition .standard set.plain = .ok typeCase' ∧
        typeCase.exhaustive.map Variant.label = typeCase'.exhaustive.map Variant.label ∧
        typeCase.default.label = typeCase'.default.label := by
  have hcheck : ∃ document ∈ (Sample.schema.compile Sample.conditional).toOption,
      ∃ set ∈ Sample.fieldSets document,
        ∃ selection ∈ set.selections, selection.conditions.isEmpty = false := by
    decide +kernel
  simp only [Sample.mem_toOption] at hcheck
  obtain ⟨document, hcompile, set, hset, selection, hselection, hconditions⟩ := hcheck
  have hhas := Sample.has_of_mem_fieldSets hset
  have hplain := set.plain_plain
  have htable := document.fragments.plain_plain
  exact ⟨document, set, hcompile, hhas, ⟨selection, hselection, by simpa using hconditions⟩,
    hplain.symm, htable.symm,
    Schema.partition_plain hcompile hhas hplain.symm htable.symm .standard⟩

end QueryShape
