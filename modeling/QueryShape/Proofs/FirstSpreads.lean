import QueryShape.Proofs.Executable.SourceWays
import QueryShape.Proofs.MergedPartition
import QueryShape.Proofs.Mirror

/-!
# What compiling keeps free of conditions

Compiling leaves out a spread of a name that was spread before on the way to it, without a look
at the directives of either. What the compiled selections reach without conditions is therefore
what first ways lead to.

## What this module delivers

- `Compiles.assures_iff`: compiled selections assure what first ways lead to.
- `Source.setsIn`, `Selection.setsIn`: all selection sets at any depth, as written and compiled.
- `Schema.compiled_assures`: the same for all selection sets of a compiled document.
- `Schema.compiled_assures_guarded`: a spread behind the same spread under a condition.
-/

set_option autoImplicit false

namespace QueryShape

/-! ## Selections -/

section Selections

variable {schema : Schema} {texts : List SourceText} {definitions : Table FragmentSource}
  {table : FragmentTable} {type : ObjectId} {key : String}

/-- What compiled selections assure for an object type is what first ways lead to. -/
theorem Compiles.assures_iff (hsound : table.Sound schema definitions)
    (hdefinitions : ∀ name, definitions.get? name = fragmentSource? texts name) (bound : Nat) :
    ∀ {scope : Scope} {seen : NameSet} {source : List Source.Selection} {compiled : List Selection},
      Compiles schema (table.before bound) scope seen source compiled → type ∈ scope.possible →
      (table.Assures type compiled key ↔ Source.FirstWay schema texts type seen source key) := by
  -- Outside on the fragments that may still be spread, inside on the selections.
  induction bound using Nat.strongRecOn with
  | ind bound ihbound =>
      intro scope seen source compiled h
      induction h with
      | nil scope seen =>
          exact fun _ => iff_of_false FragmentTable.not_assures_nil Source.not_firstWay_nil
      | leaf hfield _ _ ih =>
          intro htype
          rw [FragmentTable.assures_cons, FragmentTable.assures_field, Source.firstWay_field,
            ih htype, hfield.conditions_eq_nil_iff, hfield.responseKey.1]
      | composite hfield _ _ _ _ _ _ ih =>
          intro htype
          rw [FragmentTable.assures_cons, FragmentTable.assures_field, Source.firstWay_field,
            ih htype, hfield.conditions_eq_nil_iff, hfield.responseKey.1]
      | repeated hseen _ ih =>
          -- The spread is not compiled, and no first way crosses it.
          intro htype
          rw [Source.firstWay_repeated hseen]
          exact ih htype
      | @spread scope seen spread id fragment directives rest compiled hnew hid hget hdirectives _
          ih =>
          intro htype
          obtain ⟨hlt, -, hget', source, hsource, hcompiles⟩ := hsound.of_before hid hget
          rw [hdefinitions] at hsource
          have happlies := @FragmentCompiles.applies_iff _ _ _ _ type hcompiles
          -- Within the fragment, spreads lead to earlier fragments only.
          have hinner : type ∈ fragment.selections.possible →
              (table.Assures type fragment.selections.selections key ↔
                Source.FirstWay schema texts type .empty source.fragment.selections key) := by
            obtain ⟨type', possible', _, selections, _, _, _, _, hselections, rfl⟩ := hcompiles
            exact ihbound id hlt hselections
          rw [FragmentTable.assures_cons, FragmentTable.assures_spread hget',
            Source.firstWay_spread hsource, ih htype, conditionsOf_eq_nil_iff hdirectives,
            happlies, PossibleTypes.mem_inter]
          refine or_congr_left ?_
          simp only [htype, hnew, true_and, and_true]
          constructor
          · rintro ⟨hin, hharmless, hassures⟩
            exact ⟨hharmless, hin, (hinner hin).mp hassures⟩
          · rintro ⟨hharmless, hin, hway⟩
            exact ⟨hin, hharmless, (hinner hin).mpr hway⟩
      | inline hnarrows hdirectives _ _ ihnested ih =>
          intro htype
          rw [FragmentTable.assures_cons, FragmentTable.assures_inline, Source.firstWay_inline,
            ih htype, conditionsOf_eq_nil_iff hdirectives, ← hnarrows.applies_iff htype]
          refine or_congr_left ?_
          constructor
          · rintro ⟨hin, hharmless, hassures⟩
            exact ⟨hharmless, hin, (ihnested hin).mp hassures⟩
          · rintro ⟨hharmless, hin, hway⟩
            exact ⟨hin, hharmless, (ihnested hin).mpr hway⟩

end Selections

/-! ## Selection sets at any depth -/

mutual

/-- The selections nested at any depth of a selection as written, fragments not looked through.
Each come with the names spread before them on the way. -/
def Source.Selection.sets (seen : NameSet) :
    Source.Selection → List (NameSet × List Source.Selection)
  | .field _ selections =>
      if selections.isEmpty then []
      else (.empty, selections) :: Source.Selection.setsIn .empty selections
  | .spread _ => []
  | .inline _ selections => (seen, selections) :: Source.Selection.setsIn seen selections

/-- The same for selections in order. -/
def Source.Selection.setsIn (seen : NameSet) :
    List Source.Selection → List (NameSet × List Source.Selection)
  | [] => []
  | selection :: rest =>
      selection.sets seen ++ Source.Selection.setsIn (seenBehind seen selection) rest

end

mutual

/-- The selection sets nested at any depth of a selection, fragments not looked through. -/
def Selection.sets : Selection → List SelectionSet
  | .field _ none => []
  | .field _ (some ⟨parent, possible, selections⟩) =>
      ⟨parent, possible, selections⟩ :: Selection.setsIn selections
  | .spread _ => []
  | .inline _ ⟨parent, possible, selections⟩ =>
      ⟨parent, possible, selections⟩ :: Selection.setsIn selections

/-- The same for selections in order. -/
def Selection.setsIn : List Selection → List SelectionSet
  | [] => []
  | selection :: rest => selection.sets ++ Selection.setsIn rest

end

/-- Selections as written with those nested at any depth. -/
def Source.allSets (selections : List Source.Selection) :
    List (NameSet × List Source.Selection) :=
  (.empty, selections) :: Source.Selection.setsIn .empty selections

/-- A selection set with those nested at any depth. -/
def SelectionSet.allSets (set : SelectionSet) : List SelectionSet :=
  set :: Selection.setsIn set.selections

/-- For each of its object types, a compiled selection set assures the response keys that first
ways lead to through the selections as written. -/
def KeepsFirst (schema : Schema) (texts : List SourceText) (table : FragmentTable)
    (written : NameSet × List Source.Selection) (set : SelectionSet) : Prop :=
  ∀ type ∈ set.possible, ∀ key, table.Assures type set.selections key ↔
    Source.FirstWay schema texts type written.1 written.2 key

section Sets

variable {schema : Schema} {texts : List SourceText} {definitions : Table FragmentSource}
  {table : FragmentTable}

theorem Compiles.keepsFirst (hsound : table.Sound schema definitions)
    (hdefinitions : ∀ name, definitions.get? name = fragmentSource? texts name) {scope : Scope}
    {seen : NameSet} {source : List Source.Selection} {compiled : List Selection}
    (h : Compiles schema table scope seen source compiled) (parent : String) :
    KeepsFirst schema texts table (seen, source) ⟨parent, scope.possible, compiled⟩ :=
  fun _ htype _ =>
    Compiles.assures_iff hsound hdefinitions table.size (table.before_size.symm ▸ h) htype

/-- Place by place, nested selection sets assure what first ways lead to. -/
theorem Compiles.keepsFirst_setsIn (hsound : table.Sound schema definitions)
    (hdefinitions : ∀ name, definitions.get? name = fragmentSource? texts name) {scope : Scope}
    {seen : NameSet} {source : List Source.Selection} {compiled : List Selection}
    (h : Compiles schema table scope seen source compiled) :
    List.Forall₂ (KeepsFirst schema texts table) (Source.Selection.setsIn seen source)
      (Selection.setsIn compiled) := by
  induction h with
  | nil => exact .nil
  | leaf _ _ _ ih => exact ih
  | composite _ _ hne _ hnested _ ihnested ih =>
      rw [Source.Selection.setsIn, Source.Selection.sets, if_neg (by simpa using hne)]
      exact List.rel_append (.cons (hnested.keepsFirst hsound hdefinitions _) ihnested) ih
  | repeated _ _ ih => exact ih
  | spread _ _ _ _ _ ih => exact ih
  | inline _ _ hnested _ ihnested ih =>
      rw [Source.Selection.setsIn, Source.Selection.sets]
      exact List.rel_append (.cons (hnested.keepsFirst hsound hdefinitions _) ihnested) ih

end Sets

/-! ## Documents -/

section Compiled

variable {schema : Schema} {texts : List SourceText} {document : CompiledDocument}

/-- What compiling keeps free of conditions. Every operation and every fragment of a compiled
document has the selection sets of its definition, place by place, and each of them assures, for
each of its object types, exactly the response keys that first ways lead to through the selections
as written. -/
theorem Schema.compiled_assures (h : schema.compile texts = .ok document) :
    List.Forall₂ (fun source operation =>
        List.Forall₂ (KeepsFirst schema texts document.fragments)
          (Source.allSets source.2.selections) operation.selections.allSets)
      (operationSources texts) document.operations ∧
    ∀ name source, fragmentSource? texts name = some source → ∃ id fragment,
      document.fragments.idOf? name = some id ∧ document.fragments.get? id = some fragment ∧
      List.Forall₂ (KeepsFirst schema texts document.fragments)
        (Source.allSets source.fragment.selections) fragment.selections.allSets := by
  obtain ⟨definitions, hfrom⟩ := Schema.compile_spec h
  have hdefinitions : ∀ name, definitions.get? name = fragmentSource? texts name :=
    fragmentSources_get? hfrom.sources
  -- Everything is compiled against the final table or some of its first fragments.
  have hall : ∀ {scope : Scope} {source : List Source.Selection} {compiled : List Selection}
      (parent : String), Compiles schema document.fragments scope .empty source compiled →
      List.Forall₂ (KeepsFirst schema texts document.fragments) (Source.allSets source)
        (SelectionSet.allSets ⟨parent, scope.possible, compiled⟩) :=
    fun parent hcompiles => .cons (hcompiles.keepsFirst hfrom.sound hdefinitions parent)
      (hcompiles.keepsFirst_setsIn hfrom.sound hdefinitions)
  refine ⟨hfrom.operations.imp fun source operation hcompiles => ?_, fun name source hsource => ?_⟩
  · obtain ⟨_, _, _, _, _, type, _, -, -, -, -, -, -, hselections, rfl⟩ := hcompiles
    exact hall type.name hselections
  · -- Each definition was compiled, and only once.
    rw [← hdefinitions] at hsource
    obtain ⟨id, hid⟩ := hfrom.complete name source hsource
    obtain ⟨fragment, hget, rfl⟩ := FragmentTable.exists_get?_of_idOf? hid
    obtain ⟨source', hsource', hcompiles⟩ := hfrom.sound.compiled id fragment hget
    obtain rfl := Option.some.inj (hsource.symm.trans hsource')
    refine ⟨id, fragment, hid, hget, ?_⟩
    obtain ⟨type, _, _, _, _, _, _, _, hselections, rfl⟩ := hcompiles
    exact hall type.name (hselections.mono (hfrom.sound.before_growsTo id))

theorem Schema.compiled_assures_sample : ∃ document id fragment,
    Sample.schema.compile Sample.texts = .ok document ∧
      document.fragments.idOf? "F" = some id ∧ document.fragments.get? id = some fragment ∧
      2 ∈ fragment.selections.possible ∧
      Source.FirstWay Sample.schema Sample.texts 2 .empty [Sample.id (some "user")] "user" ∧
      document.fragments.Assures 2 fragment.selections.selections "user" := by
  have hcheck : ∃ document ∈ (Sample.schema.compile Sample.texts).toOption,
      ∃ id ∈ document.fragments.idOf? "F", ∃ fragment ∈ document.fragments.get? id,
        2 ∈ fragment.selections.possible := by
    decide +kernel
  simp only [Sample.mem_toOption] at hcheck
  obtain ⟨document, hcompile, id, hid, fragment, hget, htype⟩ := hcheck
  obtain ⟨id', fragment', hid', hget', hsets⟩ :=
    (Schema.compiled_assures hcompile).2 "F" ⟨none, ⟨Sample.position, "F", "User", [],
      [Sample.id (some "user")]⟩⟩ rfl
  obtain rfl := Option.some.inj (hid.symm.trans hid')
  obtain rfl := Option.some.inj (hget.symm.trans hget')
  have hway : Source.FirstWay Sample.schema Sample.texts 2 .empty [Sample.id (some "user")] "user" :=
    .field fun directive hdirective => absurd hdirective List.not_mem_nil
  cases hsets with
  | cons hkeeps _ =>
      exact ⟨document, id, fragment, hcompile, hid, hget, htype, hway,
        (hkeeps 2 htype "user").mpr hway⟩

/-- `query Q { node { ...F @include(if: $more) ...F } }` with the field `id` in `F`. -/
def Sample.spreadTwice : List SourceText :=
  query [node [] [spread ["more"] "F", spread [] "F"]] [("F", [id none])]

/-- A way that is not first is lost: the second spread leads to `id` without conditions, but it is
left out for the first one, which has a condition. -/
theorem Schema.compiled_assures_guarded : ∃ document source operation written set,
    Sample.schema.compile Sample.spreadTwice = .ok document ∧
      (operationSources Sample.spreadTwice)[0]? = some source ∧
      document.operations[0]? = some operation ∧
      (Source.allSets source.2.selections)[1]? = some written ∧
      operation.selections.allSets[1]? = some set ∧ 1 ∈ set.possible ∧
      Source.FreeWay Sample.schema Sample.spreadTwice 1 written.2 "id" ∧
      ¬ document.fragments.Assures 1 set.selections "id" := by
  have hcheck : ∃ document ∈ (Sample.schema.compile Sample.spreadTwice).toOption,
      ∃ operation ∈ document.operations[0]?, ∃ set ∈ operation.selections.allSets[1]?,
        1 ∈ set.possible ∧
        (∀ id ∈ Selection.spreadsIn set.selections, id < document.fragments.size) ∧
        ¬ ∃ occurrence ∈ document.fragments.occurrences .standard 1 set,
          occurrence.HasKey "id" ∧ occurrence.conditions = [] := by
    decide +kernel
  simp only [Sample.mem_toOption] at hcheck
  obtain ⟨document, hcompile, operation, hoperation, set, hset, htype, hresolves, hnone⟩ := hcheck
  obtain ⟨definitions, hfrom⟩ := Schema.compile_spec hcompile
  have hfree : Source.FreeWay Sample.schema Sample.spreadTwice 1
      [Sample.spread ["more"] "F", Sample.spread [] "F"] "id" := by
    have happlies : Sample.schema.Applies 1 "Node" := ⟨⟨3, 6, by decide⟩, rfl, by decide⟩
    have hfield : Source.FreeWay Sample.schema Sample.spreadTwice 1 [Sample.id none] "id" :=
      .field List.mem_cons_self fun directive hdirective => absurd hdirective List.not_mem_nil
    exact .spread (List.mem_cons_of_mem _ List.mem_cons_self)
      (fun directive hdirective => absurd hdirective List.not_mem_nil) rfl happlies hfield
  refine ⟨document, _, operation, _, set, hcompile, rfl, hoperation, rfl, hset, htype, hfree,
    fun hassures => hnone ?_⟩
  exact (FragmentTable.assures_iff hfrom.ordered hresolves).mp hassures

end Compiled

end QueryShape
