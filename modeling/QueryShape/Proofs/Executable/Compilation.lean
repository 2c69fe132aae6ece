import QueryShape.Proofs.Executable.Compiles

/-!
# Compilation computes the relation

Every part of a compilation, if it succeeds, leaves a sound table behind and yields what the
relation `Compiles` asks for. Fragments are compiled on the way, which makes the resolver of
names the point where the recursion closes: it is correct if it is correct for all longer
paths of names.

## What this module delivers

- `Advances`: what a successful part does to the table.
- `Resolver.Correct`: a resolver that advances the table and finds the number of a name.
- `compileField_spec`, `compileSpread_spec`, `narrowScope_spec`, `compileSelections_spec`,
  `compileFragment_spec`: one lemma for each part.
- `fragmentIdWithin_correct`: the resolver of a compilation is correct.
-/

set_option autoImplicit false

namespace QueryShape

open CompileM

variable {schema : Schema} {definitions : Table FragmentSource} {path : List String}
  {before middle after : Compilation}

/-! ## Advancing -/

/-- What a part of a compilation does to the table of fragments. Names on the path of
fragments that are being compiled do not get into it. -/
structure Advances (schema : Schema) (definitions : Table FragmentSource) (path : List String)
    (before after : Compilation) : Prop where
  sound : after.fragments.Sound schema definitions
  grows : before.fragments.GrowsTo after.fragments
  closed : ∀ name ∈ path, before.fragments.idOf? name = none →
    after.fragments.idOf? name = none

theorem Advances.of_eq (h : before.fragments.Sound schema definitions)
    (heq : after.fragments = before.fragments) : Advances schema definitions path before after where
  sound := heq ▸ h
  grows := heq ▸ FragmentTable.GrowsTo.refl _
  closed _ _ hnone := heq ▸ hnone

theorem Advances.trans (h : Advances schema definitions path before middle)
    (h' : Advances schema definitions path middle after) :
    Advances schema definitions path before after where
  sound := h'.sound
  grows := h.grows.trans h'.grows
  closed name hname hnone := h'.closed name hname (h.closed name hname hnone)

/-- A resolver that only advances the table and finds the number of every name that it is
asked for. -/
def Resolver.Correct (schema : Schema) (definitions : Table FragmentSource) (path : List String)
    (resolve : Resolver) : Prop :=
  ∀ (name : String) (location : Location) (before after : Compilation) (id : FragmentId),
    (resolve name location).Succeeds before id after →
    before.fragments.Sound schema definitions →
    Advances schema definitions path before after ∧ after.fragments.idOf? name = some id

/-! ## Selections -/

/-- What compiling a field can do: its type is recorded, and that is all. -/
theorem compileField_cases {scope : Scope} {field : Source.Field} {head : FieldSelection}
    {type : NamedType}
    (h : (compileField schema scope field).Succeeds before (head, type) after) :
    FieldCompiles schema scope field head type ∧
      (refer schema head.type.typeName).Succeeds before () after := by
  simp only [compileField, succeeds_bind, succeeds_ensure] at h
  obtain ⟨definition?, _, ⟨hfield, rfl⟩, h⟩ := h
  cases definition? with
  | none => exact absurd h not_succeeds_undefined
  | some definition =>
      simp only [ensure_arguments, pure_bind, succeeds_bind, succeeds_typeNamed,
        succeeds_directives, succeeds_pure] at h
      obtain ⟨type', _, ⟨htype, rfl⟩, _, state, hrefer, directives, _, ⟨hdirectives, rfl⟩, heq,
        rfl⟩ := h
      obtain ⟨rfl, rfl⟩ := Prod.mk.injEq _ _ _ _ ▸ heq
      exact ⟨⟨definition, directives, hfield, htype, hdirectives, rfl⟩, hrefer⟩

theorem compileField_spec {scope : Scope} {field : Source.Field} {head : FieldSelection}
    {type : NamedType}
    (h : (compileField schema scope field).Succeeds before (head, type) after) :
    FieldCompiles schema scope field head type ∧ after.fragments = before.fragments := by
  obtain ⟨hcompiles, hrefer⟩ := compileField_cases h
  exact ⟨hcompiles, succeeds_refer hrefer⟩

theorem compileSpread_spec {resolve : Resolver}
    (hresolve : resolve.Correct schema definitions path) {scope : Scope} {spread : Source.Spread}
    {head : SpreadSelection}
    (h : (compileSpread schema resolve scope spread).Succeeds before head after)
    (hsound : before.fragments.Sound schema definitions) :
    Advances schema definitions path before after ∧ ∃ id fragment directives,
      after.fragments.idOf? spread.name = some id ∧ after.fragments.get? id = some fragment ∧
      AppliedDirective.compileAll schema scope.file spread.directives = .ok directives ∧
      head = ⟨id, spread.name, directives, fragment.selections.possible ∩ scope.possible,
        .source scope.file spread.position⟩ := by
  simp only [compileSpread, succeeds_bind, succeeds_get, succeeds_ensure, succeeds_directives,
    succeeds_pure] at h
  obtain ⟨id, state, hid, _, _, ⟨rfl, rfl⟩, fragment, _, ⟨hfragment, rfl⟩, directives, _,
    ⟨hdirectives, rfl⟩, rfl, rfl⟩ := h
  obtain ⟨hadvances, hname⟩ := hresolve _ _ _ _ _ hid hsound
  exact ⟨hadvances, id, fragment, directives, hname, FragmentTable.resolve_eq_ok.mp hfragment,
    hdirectives, rfl⟩

theorem narrowScope_spec {scope inner : Scope} {fragment : Source.InlineFragment}
    (h : (narrowScope schema scope fragment).Succeeds before inner after) :
    scope.NarrowsTo schema fragment inner ∧ after.fragments = before.fragments := by
  rw [narrowScope] at h
  rw [Scope.NarrowsTo]
  -- A type condition that is missing or not decides both sides.
  cases hcondition : fragment.typeCondition with
  | none =>
      simp only [hcondition, succeeds_pure] at h
      exact ⟨h.1, by rw [h.2]⟩
  | some name =>
      simp only [hcondition, succeeds_bind, succeeds_possibleTypesOf, succeeds_pure] at h
      obtain ⟨type, _, htype, possible, _, ⟨hpossible, rfl⟩, rfl, rfl⟩ := h
      obtain ⟨hnamed, hcomposite, hsame⟩ := succeeds_checkTypeCondition htype
      exact ⟨⟨type, possible, hnamed, hcomposite, hpossible, rfl⟩, hsame⟩

/-- What compiling a field can do: a field of a leaf type has no selections, and one of a
composite type has some, which compile on that type. -/
theorem compileSelection_field_cases {resolve : Resolver} {scope : Scope} {seen : NameSet}
    {field : Source.Field} {selections : List Source.Selection} {compiled : Option Selection}
    (h : (compileSelection schema resolve scope seen (.field field selections)).Succeeds before
      compiled after) :
    ∃ head type middle, (compileField schema scope field).Succeeds before (head, type) middle ∧
      ((type.isComposite = false ∧ selections = [] ∧ compiled = some (.field head none) ∧
          after = middle) ∨
        ∃ possible nested, type.isComposite = true ∧ selections ≠ [] ∧
          schema.possibleTypes? type.name = some possible ∧
          (compileSelections schema resolve ⟨scope.file, type, possible⟩ .empty
            selections).Succeeds middle nested after ∧
          compiled = some (.field head (some ⟨type.name, possible, nested⟩))) := by
  simp only [compileSelection, succeeds_bind] at h
  obtain ⟨⟨head, type⟩, middle, hfield, h⟩ := h
  refine ⟨head, type, middle, hfield, ?_⟩
  cases hcomposite : type.isComposite with
  | false =>
      cases selections with
      | nil =>
          simp only [hcomposite, List.isEmpty_nil, succeeds_pure] at h
          exact Or.inl ⟨rfl, rfl, h⟩
      | cons first others =>
          simp only [hcomposite, List.isEmpty_cons] at h
          exact absurd h not_succeeds_malformed
  | true =>
      cases selections with
      | nil =>
          simp only [hcomposite, List.isEmpty_nil] at h
          exact absurd h not_succeeds_malformed
      | cons first others =>
          simp only [hcomposite, List.isEmpty_cons, succeeds_bind, succeeds_possibleTypesOf,
            succeeds_pure] at h
          obtain ⟨possible, _, ⟨hpossible, rfl⟩, nested, _, hnested, rfl, rfl⟩ := h
          exact Or.inr ⟨possible, nested, rfl, List.cons_ne_nil first others, hpossible, hnested, rfl⟩

/-- The names spread before the selections behind a selection. -/
def seenBehind (seen : NameSet) : Source.Selection → NameSet
  | .spread spread => seen.insert spread.name
  | _ => seen

mutual

theorem compileSelection_spec {resolve : Resolver}
    (hresolve : resolve.Correct schema definitions path) (selection : Source.Selection)
    {scope : Scope} {seen : NameSet} {compiled : Option Selection} {before after : Compilation}
    (h : (compileSelection schema resolve scope seen selection).Succeeds before compiled after)
    (hsound : before.fragments.Sound schema definitions) :
    Advances schema definitions path before after ∧
      ∀ table, after.fragments.GrowsTo table → ∀ rest compiledRest,
        Compiles schema table scope (seenBehind seen selection) rest compiledRest →
        Compiles schema table scope seen (selection :: rest)
          (compiled.toList ++ compiledRest) := by
  cases selection with
  | field field selections =>
      obtain ⟨head, type, middle, hfield, hcases⟩ := compileSelection_field_cases h
      obtain ⟨hhead, hsame⟩ := compileField_spec hfield
      have hfirst : Advances schema definitions path before middle := .of_eq hsound hsame
      rcases hcases with ⟨hcomposite, rfl, rfl, rfl⟩ |
        ⟨possible, nested, hcomposite, hne, hpossible, hnested, rfl⟩
      · exact ⟨hfirst, fun table _ rest compiledRest hrest => .leaf hhead hcomposite hrest⟩
      · obtain ⟨hinner, hcompiled⟩ := compileSelections_spec hresolve selections hnested
          hfirst.sound
        exact ⟨hfirst.trans hinner, fun table hgrows rest compiledRest hrest =>
          .composite hhead hcomposite hne hpossible (hcompiled.mono hgrows) hrest⟩
  | spread spread =>
      simp only [compileSelection] at h
      cases hseen : seen.contains spread.name with
      | true =>
          rw [hseen, if_pos rfl, succeeds_pure] at h
          obtain ⟨rfl, rfl⟩ := h
          exact ⟨.of_eq hsound rfl, fun table _ rest compiledRest hrest => .repeated hseen hrest⟩
      | false =>
          rw [hseen, if_neg (by simp), succeeds_bind] at h
          obtain ⟨head, _, hspread, hpure⟩ := h
          rw [succeeds_pure] at hpure
          obtain ⟨rfl, rfl⟩ := hpure
          obtain ⟨hadvances, id, fragment, directives, hid, hget, hdirectives, rfl⟩ :=
            compileSpread_spec hresolve hspread hsound
          exact ⟨hadvances, fun table hgrows rest compiledRest hrest =>
            .spread hseen (hgrows.idOf? hid) (hgrows.get? hget) hdirectives hrest⟩
  | inline fragment selections =>
      simp only [compileSelection, succeeds_bind, succeeds_directives, succeeds_pure] at h
      obtain ⟨inner, _, hinner, directives, middle, ⟨hdirectives, rfl⟩, nested, _, hnested, rfl,
        rfl⟩ := h
      obtain ⟨hnarrows, hsame⟩ := narrowScope_spec hinner
      have hfirst : Advances schema definitions path before middle := .of_eq hsound hsame
      obtain ⟨hadvances, hcompiled⟩ := compileSelections_spec hresolve selections hnested
        hfirst.sound
      exact ⟨hfirst.trans hadvances, fun table hgrows rest compiledRest hrest =>
        .inline hnarrows hdirectives (hcompiled.mono hgrows) hrest⟩

/-- Selections compile against the table that their compilation leaves behind. -/
theorem compileSelections_spec {resolve : Resolver}
    (hresolve : resolve.Correct schema definitions path) (selections : List Source.Selection)
    {scope : Scope} {seen : NameSet} {compiled : List Selection} {before after : Compilation}
    (h : (compileSelections schema resolve scope seen selections).Succeeds before compiled after)
    (hsound : before.fragments.Sound schema definitions) :
    Advances schema definitions path before after ∧
      Compiles schema after.fragments scope seen selections compiled := by
  cases selections with
  | nil =>
      simp only [compileSelections, succeeds_pure] at h
      obtain ⟨rfl, rfl⟩ := h
      exact ⟨.of_eq hsound rfl, .nil scope seen⟩
  | cons selection rest =>
      simp only [compileSelections, succeeds_bind, succeeds_pure] at h
      obtain ⟨first, middle, hfirst, others, _, hrest, rfl, rfl⟩ := h
      obtain ⟨hadvances, hone⟩ := compileSelection_spec hresolve selection hfirst hsound
      obtain ⟨hadvances', hcompiled⟩ := compileSelections_spec hresolve rest hrest hadvances.sound
      refine ⟨hadvances.trans hadvances', hone _ hadvances'.grows rest others ?_⟩
      cases selection with
      | field field nested => exact hcompiled
      | spread spread => exact hcompiled
      | inline fragment nested => exact hcompiled

end

/-! ## Fragments -/

theorem compileFragment_spec {resolve : Resolver}
    (hresolve : resolve.Correct schema definitions path) {source : FragmentSource}
    {fragment : Fragment}
    (h : (compileFragment schema resolve source).Succeeds before fragment after)
    (hsound : before.fragments.Sound schema definitions) :
    Advances schema definitions path before after ∧
      FragmentCompiles schema after.fragments source fragment := by
  simp only [compileFragment, succeeds_bind, succeeds_possibleTypesOf, succeeds_directives,
    succeeds_pure] at h
  obtain ⟨type, _, htype, possible, _, ⟨hpossible, rfl⟩, directives, middle, ⟨hdirectives, rfl⟩,
    selections, _, hselections, rfl, rfl⟩ := h
  obtain ⟨hnamed, hcomposite, hsame⟩ := succeeds_checkTypeCondition htype
  have hfirst : Advances schema definitions path before middle := .of_eq hsound hsame
  obtain ⟨hadvances, hcompiled⟩ := compileSelections_spec hresolve _ hselections hfirst.sound
  exact ⟨hfirst.trans hadvances, type, possible, directives, selections, hnamed, hcomposite,
    hpossible, hdirectives, hcompiled, rfl⟩

/-- What finding the number of a fragment can do: the fragment is in the table, or its name
is not on the path and it is compiled and put at the end. -/
theorem fragmentIdWithin_cases {depth : Nat} {name : String} {location : Location}
    {id : FragmentId}
    (h : (fragmentIdWithin schema definitions depth path name location).Succeeds before id after) :
    (before.fragments.idOf? name = some id ∧ after = before) ∨
      ∃ source depth' fragment middle, before.fragments.idOf? name = none ∧ depth = depth' + 1 ∧
        name ∉ path ∧ definitions.get? name = some source ∧
        (compileFragment schema (fragmentIdWithin schema definitions depth' (name :: path))
          source).Succeeds before fragment middle ∧
        after = { middle with fragments := middle.fragments.push fragment } ∧
        id = middle.fragments.size := by
  -- A rewrite would unfold the call on the longer path as well.
  unfold fragmentIdWithin at h
  simp only [succeeds_bind, succeeds_get] at h
  obtain ⟨before', _, ⟨rfl, rfl⟩, h⟩ := h
  split at h
  · next present hpresent =>
      rw [succeeds_pure] at h
      obtain ⟨rfl, rfl⟩ := h
      exact Or.inl ⟨hpresent, rfl⟩
  · next hnone =>
      apply Or.inr
      split at h
      · exact absurd h not_succeeds_malformed
      · next hpath =>
          rw [List.contains_iff_mem] at hpath
          split at h
          · next source depth' hsource =>
              simp only [succeeds_bind, succeeds_get, succeeds_set, succeeds_pure] at h
              obtain ⟨fragment, middle, hfragment, _, _, ⟨rfl, rfl⟩, _, _, rfl, rfl, rfl⟩ := h
              exact ⟨source, depth', fragment, _, hnone, rfl, hpath, hsource, hfragment, rfl, rfl⟩
          · exact absurd h not_succeeds_undefined

/-- The resolver of a compilation is correct, for every path of names. While the fragment of a
name is compiled the name stays out of the table, so that it is new when the fragment is put
there. -/
theorem fragmentIdWithin_correct
    (hdefinitions : ∀ name source, definitions.get? name = some source →
      source.fragment.name = name) (depth : Nat) (path : List String) :
    Resolver.Correct schema definitions path (fragmentIdWithin schema definitions depth path) := by
  -- Each fragment on the way is resolved on a longer path, with less depth.
  induction depth generalizing path with
  | zero =>
      intro name location before after id h hsound
      rcases fragmentIdWithin_cases h with ⟨hid, rfl⟩ | ⟨_, depth', _, _, _, hdepth, -⟩
      · exact ⟨.of_eq hsound rfl, hid⟩
      · exact absurd hdepth (Nat.succ_ne_zero depth').symm
  | succ depth ih =>
      intro name location before after id h hsound
      rcases fragmentIdWithin_cases h with ⟨hid, rfl⟩ |
        ⟨source, depth', fragment, middle, hnone, hdepth, hpath, hsource, hfragment, rfl, rfl⟩
      · exact ⟨.of_eq hsound rfl, hid⟩
      · obtain rfl : depth = depth' := Nat.succ.inj hdepth
        obtain ⟨hadvances, hcompiled⟩ := compileFragment_spec (ih (name :: path)) hfragment hsound
        have hname : fragment.name = name := by
          obtain ⟨_, _, _, _, -, -, -, -, -, rfl⟩ := hcompiled
          exact hdefinitions name source hsource
        have hnew : middle.fragments.idOf? fragment.name = none := by
          rw [hname]
          exact hadvances.closed name List.mem_cons_self hnone
        refine ⟨⟨?_, ?_, ?_⟩, ?_⟩
        · exact hadvances.sound.push (hname ▸ hsource) hcompiled hnew
        · exact hadvances.grows.trans (.push hnew)
        · -- A name on the path is not that of the fragment, which was checked first.
          intro other hother hbefore
          have hstill := hadvances.closed other (List.mem_cons_of_mem _ hother) hbefore
          have hne : other ≠ fragment.name := by
            rintro rfl
            exact hpath (hname ▸ hother)
          rw [FragmentTable.idOf?_push, if_neg hne, hstill]
        · rw [FragmentTable.idOf?_push, if_pos hname.symm]

end QueryShape
