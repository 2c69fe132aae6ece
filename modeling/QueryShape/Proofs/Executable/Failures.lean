import QueryShape.Proofs.Executable.Success

/-!
# Why documents do not compile

A compilation that fails ends with one error, and the error has a reason that can be found in what
is compiled. A cycle is reported only for a name that leads to itself. A fault of an invariant is
reported only where the schema is to blame: it names a type that it does not define, or gives no
possible types to a type that ought to have some. That a fragment is missing from the table is
never reported, because it is looked up under the number that has just been found for it.

## What this module delivers

- `CompileM.FailsOnly`: a step fails with certain errors only; `failsOnly_bind` and the lemmas
  behind it take a step apart.
- `Schema.Mentions`: the names that a schema itself refers to.
- `Schema.Causes`: the faults of an invariant that a schema is to blame for.
- `CompileError.Explained`: an error with its reason.
- `failsOnly_compileSelections`, `failsOnly_fragmentIdWithin`, `failsOnly_compileOperation`: the
  parts of a compilation.
- `Schema.explained_of_compile`: every error of a compilation is explained.
-/

set_option autoImplicit false

namespace QueryShape

/-! ## Steps that fail -/

namespace CompileM

variable {α β : Type} {before : Compilation} {fine : CompileError → Prop}

/-- A step fails from a state with certain errors only. -/
def FailsOnly (step : CompileM α) (before : Compilation) (fine : CompileError → Prop) : Prop :=
  ∀ error, step.run before = .error error → fine error

/-- The first step may fail, or the second one, from the state that the first one leads to. -/
theorem failsOnly_bind {step : CompileM α} {next : α → CompileM β} :
    (step >>= next).FailsOnly before fine ↔ step.FailsOnly before fine ∧
      ∀ value middle, step.Succeeds before value middle → (next value).FailsOnly middle fine := by
  simp only [FailsOnly, Succeeds, StateT.run_bind]
  cases hrun : step.run before with
  | error error => simp [bind, Except.bind]
  | ok outcome =>
      obtain ⟨value, middle⟩ := outcome
      simp only [bind, Except.bind, reduceCtorEq, false_implies, implies_true, true_and,
        Except.ok.injEq, Prod.mk.injEq]
      constructor
      · rintro h _ _ ⟨rfl, rfl⟩
        exact h
      · intro h
        exact h value middle ⟨rfl, rfl⟩

@[simp] theorem failsOnly_pure (value : α) : (pure value : CompileM α).FailsOnly before fine :=
  fun _ h => nomatch h

@[simp] theorem failsOnly_get : (get : CompileM Compilation).FailsOnly before fine :=
  fun _ h => nomatch h

@[simp] theorem failsOnly_set (state : Compilation) :
    (set state : CompileM PUnit).FailsOnly before fine :=
  fun _ h => nomatch h

@[simp] theorem failsOnly_undefined {error : ReferenceError} :
    (undefined error : CompileM α).FailsOnly before fine ↔ fine (.reference error) := by
  constructor
  · intro h
    exact h _ rfl
  · rintro h _ ⟨⟩
    exact h

@[simp] theorem failsOnly_malformed {error : StructureError} :
    (malformed error : CompileM α).FailsOnly before fine ↔ fine (.malformed error) := by
  constructor
  · intro h
    exact h _ rfl
  · rintro h _ ⟨⟩
    exact h

theorem failsOnly_invariant {error : InvariantError} :
    (throw (.invariant error) : CompileM α).FailsOnly before fine ↔ fine (.invariant error) := by
  constructor
  · intro h
    exact h _ rfl
  · rintro h _ ⟨⟩
    exact h

@[simp] theorem failsOnly_ensure {value : Except InvariantError α} :
    (ensure value).FailsOnly before fine ↔
      ∀ error, value = .error error → fine (.invariant error) := by
  cases value with
  | error error => simpa [ensure] using failsOnly_invariant
  | ok value => simp [ensure]

variable {schema : Schema}

@[simp] theorem failsOnly_directives {file : Option FileName} {source : List Source.Directive} :
    (directives schema file source).FailsOnly before fine ↔
      ∀ error, AppliedDirective.compileAll schema file source = .error error → fine error := by
  rw [directives]
  cases AppliedDirective.compileAll schema file source with
  | error error =>
      constructor
      · rintro h _ ⟨⟩
        exact h _ rfl
      · rintro h _ ⟨⟩
        exact h _ rfl
  | ok applied => simp

@[simp] theorem failsOnly_typeNamed {name : String} :
    (typeNamed schema name).FailsOnly before fine ↔
      (schema.type? name = none → fine (.invariant (.typeMissing name))) := by
  rw [typeNamed]
  cases schema.type? name with
  | none => simpa using failsOnly_invariant
  | some type => simp

@[simp] theorem failsOnly_possibleTypesOf {name : String} :
    (possibleTypesOf schema name).FailsOnly before fine ↔
      (schema.possibleTypes? name = none → fine (.invariant (.notComposite name))) := by
  rw [possibleTypesOf]
  cases schema.possibleTypes? name with
  | none => simpa using failsOnly_invariant
  | some possible => simp

/-! ### Steps for each entry of a list -/

/-- The steps before an entry keep the state proper, so its own step starts in a proper one. -/
theorem failsOnly_foldlM (proper : Compilation → Prop) {step : β → α → CompileM β}
    (entries : List α)
    (hfails : ∀ entry ∈ entries, ∀ known before, proper before →
      (step known entry).FailsOnly before fine)
    (hkeeps : ∀ entry ∈ entries, ∀ known before result after, proper before →
      (step known entry).Succeeds before result after → proper after)
    (known : β) {before : Compilation} (hbefore : proper before) :
    (entries.foldlM step known).FailsOnly before fine := by
  induction entries generalizing before known with
  | nil => exact failsOnly_pure known
  | cons entry entries ih =>
      obtain ⟨hentry, hentries⟩ := List.forall_mem_cons.mp hfails
      obtain ⟨hkeep, hkeeps⟩ := List.forall_mem_cons.mp hkeeps
      rw [List.foldlM_cons, failsOnly_bind]
      refine ⟨hentry known before hbefore, ?_⟩
      intro next middle hnext
      exact ih hentries hkeeps next (hkeep known before next middle hbefore hnext)

theorem failsOnly_mapM {step : α → CompileM β} (entries : List α)
    (hfails : ∀ entry ∈ entries, ∀ before, (step entry).FailsOnly before fine)
    {before : Compilation} : (entries.mapM step).FailsOnly before fine := by
  induction entries generalizing before with
  | nil =>
      rw [List.mapM_nil]
      exact failsOnly_pure []
  | cons entry entries ih =>
      obtain ⟨hentry, hentries⟩ := List.forall_mem_cons.mp hfails
      simp only [List.mapM_cons, failsOnly_bind]
      exact ⟨hentry before, fun _ middle _ => ⟨ih hentries, fun _ _ _ => failsOnly_pure _⟩⟩

theorem failsOnly_forM (proper : Compilation → Prop) {step : α → CompileM PUnit} (entries : List α)
    (hfails : ∀ entry ∈ entries, ∀ before, proper before → (step entry).FailsOnly before fine)
    (hkeeps : ∀ entry ∈ entries, ∀ before result after, proper before →
      (step entry).Succeeds before result after → proper after)
    {before : Compilation} (hbefore : proper before) :
    (entries.forM step).FailsOnly before fine := by
  induction entries generalizing before with
  | nil => exact failsOnly_pure PUnit.unit
  | cons entry entries ih =>
      obtain ⟨hentry, hentries⟩ := List.forall_mem_cons.mp hfails
      obtain ⟨hkeep, hkeeps⟩ := List.forall_mem_cons.mp hkeeps
      rw [List.forM_eq_forM, List.forM_cons, failsOnly_bind]
      refine ⟨hentry before hbefore, ?_⟩
      intro result middle hfirst
      exact ih hentries hkeeps (hkeep before result middle hbefore hfirst)

end CompileM

/-! ## Reasons -/

/-- The names of types that a schema itself refers to: root types, types of fields, and what types
bring along. -/
inductive Schema.Mentions (schema : Schema) : String → Prop
  | root {kind : OperationKind} {name : String} :
      schema.root? kind = some name → Mentions schema name
  | field {key name : String} {type : NamedType} {definition : FieldDefinition} :
      schema.type? key = some type → schema.field? type name = .ok (some definition) →
      Mentions schema definition.type.typeName
  | brought {key inner : String} {type : NamedType} :
      schema.type? key = some type → inner ∈ type.dependencies → Mentions schema inner

/-- The faults of an invariant that lie in a schema. -/
inductive Schema.Causes (schema : Schema) : InvariantError → Prop
  | onUnion {key field : String} {type : UnionType} :
      schema.type? key = some (.union type) → Causes schema (.fieldOnUnion field type.name)
  | leafRoot {kind : OperationKind} {key : String} {type : NamedType} :
      schema.root? kind = some key → schema.type? key = some type → type.isComposite = false →
      Causes schema (.notComposite type.name)
  | impossibleRoot {kind : OperationKind} {key : String} :
      schema.root? kind = some key → schema.possibleTypes? key = none →
      Causes schema (.notComposite key)
  | impossible {key name : String} {type : NamedType} :
      schema.type? key = some type → type.isComposite = true → name = key ∨ name = type.name →
      schema.possibleTypes? name = none → Causes schema (.notComposite name)
  | missing {name : String} :
      schema.Mentions name → schema.type? name = none → Causes schema (.typeMissing name)

/-- An error together with its reason: the schema is at fault, or a name leads to itself, or it is
one of the errors that tell the author of a document what to change. -/
def CompileError.Explained (schema : Schema) (all : List Source.Definition) : CompileError → Prop
  | .invariant error => schema.Causes error
  | .unparsable => False
  | .malformed (.fragmentCycle name _) => Relation.TransGen (Source.Spreads all) name name
  | .malformed _ => True
  | .reference _ => True

variable {schema : Schema} {definitions : Table FragmentSource} {all : List Source.Definition}
  {path : List String} {resolve : Resolver} {before : Compilation}

open CompileM

/-! ## Types that are referred to -/

namespace NameSet

theorem causes_of_foldlM_addTypeWithin {depth : Nat}
    (hadd : ∀ (set : NameSet) (name : String) (error : InvariantError), schema.Mentions name →
      addTypeWithin schema depth set name = .error error → schema.Causes error)
    (names : List String) (hnames : ∀ name ∈ names, schema.Mentions name) {set : NameSet}
    {error : InvariantError}
    (h : names.foldlM (addTypeWithin schema depth) set = .error error) : schema.Causes error := by
  induction names generalizing set with
  | nil => exact nomatch h
  | cons name names ih =>
      obtain ⟨hname, hothers⟩ := List.forall_mem_cons.mp hnames
      rw [List.foldlM_cons] at h
      cases hfirst : addTypeWithin schema depth set name with
      | error other =>
          rw [hfirst] at h
          cases h
          exact hadd set name error hname hfirst
      | ok middle =>
          rw [hfirst] at h
          exact ih hothers h

/-- A name that the schema lacks is reported as missing. -/
theorem eq_typeMissing_of_addTypeWithin {depth : Nat} {set : NameSet} {name : String}
    {error : InvariantError} (hnone : schema.type? name = none)
    (h : addTypeWithin schema depth set name = .error error) : error = .typeMissing name := by
  unfold addTypeWithin at h
  split at h
  · cases h
  · rw [hnone] at h
    cases h
    rfl

/-- Adding a name that the schema mentions or defines fails only if the schema mentions a name that
it does not define. -/
theorem causes_of_addTypeWithin (depth : Nat) {set : NameSet} {name : String}
    {error : InvariantError} (hname : schema.Mentions name ∨ (schema.type? name).isSome = true)
    (h : addTypeWithin schema depth set name = .error error) : schema.Causes error := by
  induction depth generalizing set name error with
  | zero =>
      cases htype : schema.type? name with
      | none =>
          rw [eq_typeMissing_of_addTypeWithin htype h]
          exact .missing (hname.resolve_right (by simp [htype])) htype
      | some type =>
          unfold addTypeWithin at h
          rw [htype] at h
          split at h
          · cases h
          · cases h
  | succ depth ih =>
      cases htype : schema.type? name with
      | none =>
          rw [eq_typeMissing_of_addTypeWithin htype h]
          exact .missing (hname.resolve_right (by simp [htype])) htype
      | some type =>
          unfold addTypeWithin at h
          rw [htype] at h
          split at h
          · cases h
          · -- What the type brings along is mentioned by it.
            exact causes_of_foldlM_addTypeWithin (fun _ _ _ hinner => ih (Or.inl hinner))
              type.dependencies (fun inner hinner => .brought htype hinner) h

end NameSet

/-- A type that is defined can be referred to, unless the schema is at fault. -/
theorem failsOnly_refer {name : String} (hname : (schema.type? name).isSome = true) :
    (refer schema name).FailsOnly before (CompileError.Explained schema all) := by
  simp only [refer, failsOnly_bind, failsOnly_get, failsOnly_ensure, failsOnly_set, true_and,
    implies_true, and_true]
  intro _ _ _ error herror
  exact NameSet.causes_of_addTypeWithin _ (Or.inr hname) herror

theorem failsOnly_checkTypeCondition {name : String} {location : Location} :
    (checkTypeCondition schema name location).FailsOnly before
      (CompileError.Explained schema all) := by
  rw [checkTypeCondition]
  cases htype : schema.type? name with
  | none => exact failsOnly_undefined.mpr trivial
  | some type =>
      simp only
      split
      · simp only [failsOnly_bind, failsOnly_pure, implies_true, and_true]
        exact failsOnly_refer (by simp [htype])
      · exact failsOnly_malformed.mpr trivial

/-- A list fails with the error of one of its entries. -/
theorem exists_of_mapM_eq_error {α β ε : Type} {step : α → Except ε β} {entries : List α}
    {error : ε} (h : entries.mapM step = .error error) :
    ∃ entry ∈ entries, step entry = .error error := by
  induction entries with
  | nil => exact nomatch h
  | cons entry entries ih =>
      rw [List.mapM_cons] at h
      cases hentry : step entry with
      | error other =>
          rw [hentry] at h
          cases h
          exact ⟨entry, List.mem_cons_self, hentry⟩
      | ok first =>
          rw [hentry] at h
          cases hothers : entries.mapM step with
          | error other =>
              rw [hothers] at h
              cases h
              obtain ⟨failing, hmem, hfailing⟩ := ih hothers
              exact ⟨failing, List.mem_cons_of_mem entry hmem, hfailing⟩
          | ok others =>
              rw [hothers] at h
              exact nomatch h

/-- Applying directives fails only with names that are not defined: their values fit. -/
theorem reference_of_compileAll {file : Option FileName} {source : List Source.Directive}
    {error : CompileError} (h : AppliedDirective.compileAll schema file source = .error error) :
    ∃ reason, error = .reference reason := by
  obtain ⟨directive, -, hdirective⟩ := exists_of_mapM_eq_error h
  rw [AppliedDirective.compile] at hdirective
  cases hdefinition : schema.directive? directive.name with
  | none =>
      rw [hdefinition] at hdirective
      cases hdirective
      exact ⟨_, rfl⟩
  | some definition =>
      rw [hdefinition] at hdirective
      cases harguments : directive.arguments.mapM
          (AppliedDirective.compileArgument definition (.source file directive.position)) with
      | ok arguments =>
          simp only [harguments] at hdirective
          cases hdirective
      | error other =>
          simp only [harguments] at hdirective
          cases hdirective
          obtain ⟨argument, -, hargument⟩ := exists_of_mapM_eq_error harguments
          rw [AppliedDirective.compileArgument_eq] at hargument
          split at hargument
          · cases hargument
            exact ⟨_, rfl⟩
          · cases hargument

theorem failsOnly_directives_explained {file : Option FileName} {source : List Source.Directive} :
    (directives schema file source).FailsOnly before (CompileError.Explained schema all) := by
  refine failsOnly_directives.mpr fun error herror => ?_
  obtain ⟨reason, rfl⟩ := reference_of_compileAll herror
  trivial

/-! ## Selections -/

/-- Selections stand on a type of the schema. It is composite, unless it is a root type. -/
def Scope.Stands (schema : Schema) (scope : Scope) : Prop :=
  ∃ key, schema.type? key = some scope.parent ∧
    (scope.parent.isComposite = true ∨ ∃ kind, schema.root? kind = some key)

/-- Looking up a field fails on a union, and on a root type that is not composite. -/
theorem causes_of_field? {key name : String} {parent : NamedType} {error : InvariantError}
    (hparent : schema.type? key = some parent)
    (hkind : parent.isComposite = true ∨ ∃ kind, schema.root? kind = some key)
    (h : schema.field? parent name = .error error) : schema.Causes error := by
  unfold Schema.field? at h
  cases hcomposite : parent.isComposite with
  | false =>
      rw [if_pos (by simp [hcomposite])] at h
      cases h
      rcases hkind with htrue | ⟨kind, hroot⟩
      · exact absurd htrue (by simp [hcomposite])
      · exact .leafRoot hroot hparent hcomposite
  | true =>
      rw [if_neg (by simp [hcomposite])] at h
      split at h
      · exact nomatch h
      · cases parent with
        | interface type => exact nomatch h
        | object type => exact nomatch h
        | union type =>
            cases h
            exact .onUnion hparent
        | _ => exact absurd hcomposite Bool.false_ne_true

theorem failsOnly_compileField {scope : Scope} (hscope : scope.Stands schema)
    (field : Source.Field) :
    (compileField schema scope field).FailsOnly before (CompileError.Explained schema all) := by
  obtain ⟨key, hparent, hkind⟩ := hscope
  simp only [compileField, failsOnly_bind, failsOnly_ensure, succeeds_ensure]
  refine ⟨fun error herror => causes_of_field? hparent hkind herror, ?_⟩
  rintro definition? _ ⟨hfield, rfl⟩
  cases definition? with
  | none => exact failsOnly_undefined.mpr trivial
  | some definition =>
      simp only [ensure_arguments, pure_bind, failsOnly_bind, failsOnly_typeNamed,
        succeeds_typeNamed]
      refine ⟨fun hnone => .missing (.field hparent hfield) hnone, ?_⟩
      rintro type _ ⟨htype, rfl⟩
      refine ⟨failsOnly_refer (by simp [htype]), ?_⟩
      intro _ _ _
      exact ⟨failsOnly_directives_explained, fun _ _ _ => failsOnly_pure _⟩

/-- Resolving a name fails with explained errors only. -/
def Resolver.Explains (schema : Schema) (definitions : Table FragmentSource)
    (all : List Source.Definition) (resolve : Resolver) (name : String) : Prop :=
  ∀ (location : Location) (before : Compilation), before.fragments.Sound schema definitions →
    (resolve name location).FailsOnly before (CompileError.Explained schema all)

/-- The fragment of a spread is in the table once its number has been found. -/
theorem failsOnly_compileSpread (hcorrect : resolve.Correct schema definitions path) {scope : Scope}
    {spread : Source.Spread} (hresolve : resolve.Explains schema definitions all spread.name)
    (hsound : before.fragments.Sound schema definitions) :
    (compileSpread schema resolve scope spread).FailsOnly before
      (CompileError.Explained schema all) := by
  simp only [compileSpread, failsOnly_bind, failsOnly_get, succeeds_get, failsOnly_ensure]
  refine ⟨hresolve _ before hsound, ?_⟩
  intro id middle hid
  refine ⟨trivial, ?_⟩
  rintro _ state ⟨rfl, rfl⟩
  obtain ⟨-, hnumber⟩ := hcorrect _ _ _ _ _ hid hsound
  obtain ⟨fragment, hget, -⟩ := FragmentTable.exists_get?_of_idOf? hnumber
  have hfound : state.fragments.resolve id = .ok fragment := FragmentTable.resolve_eq_ok.mpr hget
  refine ⟨fun error herror => ?_, ?_⟩
  · rw [hfound] at herror
    exact nomatch herror
  · intro _ _ _
    exact ⟨failsOnly_directives_explained, fun _ _ _ => failsOnly_pure _⟩

theorem failsOnly_narrowScope {scope : Scope} {fragment : Source.InlineFragment} :
    (narrowScope schema scope fragment).FailsOnly before (CompileError.Explained schema all) := by
  rw [narrowScope]
  cases fragment.typeCondition with
  | none => exact failsOnly_pure scope
  | some name =>
      simp only [failsOnly_bind, failsOnly_possibleTypesOf]
      refine ⟨failsOnly_checkTypeCondition, ?_⟩
      intro type _ htype
      obtain ⟨hnamed, hcomposite, -⟩ := succeeds_checkTypeCondition htype
      exact ⟨fun hnone => .impossible hnamed hcomposite (Or.inl rfl) hnone,
        fun _ _ _ => failsOnly_pure _⟩

/-- Inside an inline fragment selections stand on a type of the schema again. -/
theorem Scope.Stands.narrow {scope inner : Scope} (hscope : scope.Stands schema)
    {fragment : Source.InlineFragment} (h : scope.NarrowsTo schema fragment inner) :
    inner.Stands schema := by
  rw [Scope.NarrowsTo] at h
  cases hcondition : fragment.typeCondition with
  | none =>
      rw [hcondition] at h
      rw [h]
      exact hscope
  | some name =>
      rw [hcondition] at h
      obtain ⟨type, possible, hnamed, hcomposite, -, rfl⟩ := h
      exact ⟨name, hnamed, Or.inl hcomposite⟩

mutual

theorem failsOnly_compileSelection (hcorrect : resolve.Correct schema definitions path)
    (selection : Source.Selection)
    (hresolve : ∀ name ∈ selection.spreads, resolve.Explains schema definitions all name)
    {scope : Scope} (hscope : scope.Stands schema) {seen : NameSet} {before : Compilation}
    (hsound : before.fragments.Sound schema definitions) :
    (compileSelection schema resolve scope seen selection).FailsOnly before
      (CompileError.Explained schema all) := by
  cases selection with
  | field field selections =>
      simp only [compileSelection, failsOnly_bind]
      refine ⟨failsOnly_compileField hscope field, ?_⟩
      rintro ⟨head, type⟩ middle hfield
      obtain ⟨⟨definition, -, -, htype, -⟩, hsame⟩ := compileField_spec hfield
      have hmiddle : middle.fragments.Sound schema definitions := hsame ▸ hsound
      split
      · exact failsOnly_malformed.mpr trivial
      · exact failsOnly_malformed.mpr trivial
      · exact failsOnly_pure _
      · next hcomposite _ =>
          -- The nested selections stand on the type of the field, which is composite.
          simp only [failsOnly_bind, failsOnly_possibleTypesOf, succeeds_possibleTypesOf]
          refine ⟨fun hnone => .impossible htype hcomposite (Or.inr rfl) hnone, ?_⟩
          rintro possible _ ⟨-, rfl⟩
          exact ⟨failsOnly_compileSelections hcorrect selections hresolve
            ⟨_, htype, Or.inl hcomposite⟩ hmiddle, fun _ _ _ => failsOnly_pure _⟩
  | spread spread =>
      simp only [compileSelection]
      split
      · exact failsOnly_pure none
      · rw [failsOnly_bind]
        exact ⟨failsOnly_compileSpread hcorrect (hresolve _ List.mem_cons_self) hsound,
          fun _ _ _ => failsOnly_pure _⟩
  | inline fragment selections =>
      simp only [compileSelection, failsOnly_bind, succeeds_directives]
      refine ⟨failsOnly_narrowScope, ?_⟩
      intro inner middle hinner
      obtain ⟨hnarrows, hsame⟩ := narrowScope_spec hinner
      have hmiddle : middle.fragments.Sound schema definitions := hsame ▸ hsound
      refine ⟨failsOnly_directives_explained, ?_⟩
      rintro _ _ ⟨-, rfl⟩
      exact ⟨failsOnly_compileSelections hcorrect selections hresolve (hscope.narrow hnarrows)
        hmiddle, fun _ _ _ => failsOnly_pure _⟩

/-- Selections fail with explained errors if the names that they spread do. -/
theorem failsOnly_compileSelections (hcorrect : resolve.Correct schema definitions path)
    (selections : List Source.Selection)
    (hresolve : ∀ name ∈ Source.Selection.spreadsIn selections,
      resolve.Explains schema definitions all name)
    {scope : Scope} (hscope : scope.Stands schema) {seen : NameSet} {before : Compilation}
    (hsound : before.fragments.Sound schema definitions) :
    (compileSelections schema resolve scope seen selections).FailsOnly before
      (CompileError.Explained schema all) := by
  cases selections with
  | nil => exact failsOnly_pure []
  | cons selection rest =>
      obtain ⟨hselection, hrest⟩ := List.forall_mem_append.mp hresolve
      simp only [compileSelections, failsOnly_bind]
      refine ⟨failsOnly_compileSelection hcorrect selection hselection hscope hsound, ?_⟩
      intro compiled middle hcompiled
      obtain ⟨hadvances, -⟩ := compileSelection_spec hcorrect selection hcompiled hsound
      exact ⟨failsOnly_compileSelections hcorrect rest hrest hscope hadvances.sound,
        fun _ _ _ => failsOnly_pure _⟩

end

/-! ## Fragments -/

theorem failsOnly_compileFragment (hcorrect : resolve.Correct schema definitions path)
    {source : FragmentSource}
    (hresolve : ∀ name ∈ Source.Selection.spreadsIn source.fragment.selections,
      resolve.Explains schema definitions all name)
    (hsound : before.fragments.Sound schema definitions) :
    (compileFragment schema resolve source).FailsOnly before
      (CompileError.Explained schema all) := by
  simp only [compileFragment, failsOnly_bind, failsOnly_possibleTypesOf, succeeds_possibleTypesOf,
    succeeds_directives]
  refine ⟨failsOnly_checkTypeCondition, ?_⟩
  intro type middle htype
  obtain ⟨hnamed, hcomposite, hsame⟩ := succeeds_checkTypeCondition htype
  have hmiddle : middle.fragments.Sound schema definitions := hsame ▸ hsound
  refine ⟨fun hnone => .impossible hnamed hcomposite (Or.inl rfl) hnone, ?_⟩
  rintro possible _ ⟨-, rfl⟩
  refine ⟨failsOnly_directives_explained, ?_⟩
  rintro _ _ ⟨-, rfl⟩
  exact ⟨failsOnly_compileSelections hcorrect _ hresolve ⟨_, hnamed, Or.inl hcomposite⟩ hmiddle,
    fun _ _ _ => failsOnly_pure _⟩

/-- Finding a fragment reports a cycle only for a name that leads to itself: each name on the path
leads to the name that is looked for. The depth is not used up before all names are on the path. -/
theorem failsOnly_fragmentIdWithin (hdefines : definitions.Defines all) (depth : Nat)
    {path : List String} {name : String} (hway : OnTheWay definitions all depth path name) :
    Resolver.Explains schema definitions all (fragmentIdWithin schema definitions depth path)
      name := by
  induction depth using Nat.strongRecOn generalizing path name with
  | ind depth ih =>
      intro location before hsound
      unfold fragmentIdWithin
      simp only [failsOnly_bind, failsOnly_get, succeeds_get]
      refine ⟨trivial, ?_⟩
      rintro _ _ ⟨rfl, rfl⟩
      split
      · exact failsOnly_pure _
      · split
        · next hpath =>
            -- Everything on the path leads to the name, so the name leads to itself.
            exact failsOnly_malformed.mpr (hway.leads name (List.contains_iff_mem.mp hpath))
        · next hnew =>
            rw [List.contains_iff_mem] at hnew
            split
            · next source below hsource =>
                -- What the fragment spreads is found with the name added to the path.
                simp only [failsOnly_bind, failsOnly_get, failsOnly_set, failsOnly_pure,
                  implies_true, and_true]
                apply failsOnly_compileFragment (hdefines.correct below (name :: path)) _ hsound
                intro inner hinner
                exact ih below (Nat.lt_succ_self below) (hway.next hdefines hnew hsource hinner)
            · exact failsOnly_undefined.mpr trivial

/-! ## Operations -/

theorem failsOnly_compileVariable {file : Option FileName}
    (definition : Source.VariableDefinition) :
    (compileVariable schema file definition).FailsOnly before
      (CompileError.Explained schema all) := by
  rw [compileVariable]
  cases htype : schema.type? definition.type.typeName with
  | none => exact failsOnly_undefined.mpr trivial
  | some type =>
      simp only [ensure_defaultValue, pure_bind, failsOnly_bind]
      exact ⟨failsOnly_refer (by simp [htype]), fun _ _ _ => failsOnly_pure _⟩

theorem failsOnly_compileOperation (hcorrect : resolve.Correct schema definitions path)
    {file : Option FileName} {source : Source.Operation}
    (hresolve : ∀ name, resolve.Explains schema definitions all name)
    (hsound : before.fragments.Sound schema definitions) :
    (compileOperation schema resolve file source).FailsOnly before
      (CompileError.Explained schema all) := by
  rw [compileOperation]
  cases source.name with
  | none => exact failsOnly_malformed.mpr trivial
  | some name =>
      cases hroot : schema.root? source.kind with
      | none => exact failsOnly_undefined.mpr trivial
      | some root =>
          simp only [failsOnly_bind, failsOnly_possibleTypesOf, succeeds_possibleTypesOf,
            succeeds_directives, failsOnly_typeNamed, succeeds_typeNamed]
          refine ⟨failsOnly_mapM _ fun definition _ _ => failsOnly_compileVariable definition, ?_⟩
          intro declared middle hdeclared
          have hmiddle : middle.fragments.Sound schema definitions :=
            (compileVariables_spec source.declared hdeclared).2 ▸ hsound
          refine ⟨failsOnly_directives_explained, ?_⟩
          rintro _ _ ⟨-, rfl⟩
          refine ⟨fun hnone => .impossibleRoot hroot hnone, ?_⟩
          rintro possible _ ⟨-, rfl⟩
          refine ⟨fun hnone => .missing (.root hroot) hnone, ?_⟩
          rintro type _ ⟨htype, rfl⟩
          exact ⟨failsOnly_compileSelections hcorrect _ (fun inner _ => hresolve inner)
            ⟨root, htype, Or.inr ⟨source.kind, hroot⟩⟩ hmiddle, fun _ _ _ => failsOnly_pure _⟩

theorem failsOnly_addOperation {operations : List Operation} {operation : Operation} :
    (addOperation operations operation).FailsOnly before (CompileError.Explained schema all) := by
  rw [addOperation]
  split
  · exact failsOnly_malformed.mpr trivial
  · exact failsOnly_pure _

theorem failsOnly_compileDefinition (hcorrect : resolve.Correct schema definitions path)
    (hresolve : ∀ name, resolve.Explains schema definitions all name) {file : Option FileName}
    {definition : Source.Definition} (hsound : before.fragments.Sound schema definitions) :
    (compileDefinition schema resolve file definition).FailsOnly before
      (CompileError.Explained schema all) := by
  cases definition with
  | anonymous position selections => exact failsOnly_malformed.mpr trivial
  | fragment fragment => exact failsOnly_pure none
  | operation source =>
      rw [compileDefinition, map_eq_pure_bind, failsOnly_bind]
      exact ⟨failsOnly_compileOperation hcorrect hresolve hsound, fun _ _ _ => failsOnly_pure _⟩

/-- Compiling a definition only advances the table. -/
theorem compileDefinition_advances (hcorrect : resolve.Correct schema definitions path)
    {file : Option FileName} {definition : Source.Definition} {operation? : Option Operation}
    {after : Compilation}
    (h : (compileDefinition schema resolve file definition).Succeeds before operation? after)
    (hsound : before.fragments.Sound schema definitions) :
    Advances schema definitions path before after := by
  rcases compileDefinition_cases h with ⟨_, -, -, rfl⟩ | ⟨source, operation, -, -, hoperation⟩
  · exact .of_eq hsound rfl
  · exact (compileOperation_spec hcorrect hoperation hsound).1

theorem failsOnly_compileOperations (hcorrect : resolve.Correct schema definitions path)
    (hresolve : ∀ name, resolve.Explains schema definitions all name) (texts : List SourceText)
    (hsound : before.fragments.Sound schema definitions) :
    (compileOperations schema resolve texts).FailsOnly before
      (CompileError.Explained schema all) := by
  rw [compileOperations]
  refine failsOnly_foldlM (fun state => state.fragments.Sound schema definitions) _ ?_ ?_ [] hsound
  · rintro ⟨file, definition⟩ _ known before hbefore
    simp only [failsOnly_bind]
    refine ⟨failsOnly_compileDefinition hcorrect hresolve hbefore, ?_⟩
    intro operation? _ _
    cases operation? with
    | none => exact failsOnly_pure known
    | some operation => exact failsOnly_addOperation
  · rintro ⟨file, definition⟩ _ known before result after hbefore h
    simp only [succeeds_bind] at h
    obtain ⟨operation?, middle, hdefinition, hadd⟩ := h
    have hmiddle := (compileDefinition_advances hcorrect hdefinition hbefore).sound
    cases operation? with
    | none =>
        rw [succeeds_pure] at hadd
        exact hadd.2 ▸ hmiddle
    | some operation => exact (succeeds_addOperation hadd).2.2 ▸ hmiddle

/-! ## Documents -/

/-- A name that is defined twice is not on a cycle for that. -/
theorem explained_of_fragmentSources {texts : List SourceText} {error : StructureError}
    (h : fragmentSources texts = .error error) :
    CompileError.Explained schema all (.malformed error) := by
  have hadd : ∀ (sources : List FragmentSource) (before : Table FragmentSource),
      sources.foldlM addFragmentSource before = .error error →
        CompileError.Explained schema all (.malformed error) := by
    intro sources
    induction sources with
    | nil => exact fun _ h => nomatch h
    | cons source sources ih =>
        intro before h
        rw [List.foldlM_cons, addFragmentSource] at h
        split at h
        · cases h
          trivial
        · exact ih _ h
  exact hadd _ _ h

theorem failsOnly_compileTexts {texts : List SourceText} :
    (compileTexts schema texts).FailsOnly ⟨.empty, .empty⟩
      (CompileError.Explained schema (Source.definitions texts)) := by
  rw [compileTexts]
  cases hsources : fragmentSources texts with
  | error error => exact failsOnly_malformed.mpr (explained_of_fragmentSources hsources)
  | ok definitions =>
      have hdefines := defines_of_fragmentSources hsources
      have hcorrect : Resolver.Correct schema definitions [] (fragmentId schema definitions) :=
        hdefines.correct definitions.size []
      have hresolve : ∀ name, Resolver.Explains schema definitions (Source.definitions texts)
          (fragmentId schema definitions) name :=
        fun name => failsOnly_fragmentIdWithin hdefines definitions.size (.start name)
      have hempty := FragmentTable.Sound.empty schema definitions
      simp only [failsOnly_bind, failsOnly_pure, implies_true, and_true]
      -- The table is sound behind the operations, whichever fragments they needed.
      refine ⟨failsOnly_compileOperations hcorrect hresolve texts hempty, ?_⟩
      intro operations middle hoperations
      obtain ⟨hadvances, -⟩ := compileOperations_spec hcorrect (definitionsOf texts) hoperations
        hempty List.nodup_nil
      -- The remaining fragments are found one after the other.
      refine failsOnly_forM (fun state => state.fragments.Sound schema definitions) _ ?_ ?_
        hadvances.sound
      · intro source _ before hbefore
        rw [failsOnly_bind]
        exact ⟨hresolve _ _ before hbefore, fun _ _ _ => failsOnly_pure _⟩
      · intro source _ before result after hbefore h
        simp only [succeeds_bind, succeeds_pure] at h
        obtain ⟨id, state, hid, -, rfl⟩ := h
        exact (hcorrect _ _ _ _ _ hid hbefore).1.sound

/-- A compilation that fails reports an error that has a reason. -/
theorem Schema.explained_of_compile {texts : List SourceText} {error : CompileError}
    (h : schema.compile texts = .error error) :
    error.Explained schema (Source.definitions texts) := by
  rw [Schema.compile] at h
  cases hrun : (compileTexts schema texts).run ⟨.empty, .empty⟩ with
  | error other =>
      rw [hrun] at h
      cases h
      exact failsOnly_compileTexts error hrun
  | ok outcome =>
      rw [hrun] at h
      cases h

end QueryShape
