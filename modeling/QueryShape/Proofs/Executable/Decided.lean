import QueryShape.Proofs.Executable.Compilation
import QueryShape.Proofs.Executable.Compilable

/-!
# Steps whose success is decided

A step of a compilation changes the table of fragments and the set of types, and whether it succeeds
might depend on what others left there. It does not: in every state that a compilation can be in,
the step succeeds exactly if something holds of the definitions as written. That may speak of what
can be seen of the result, such as the type of a field, but not of the state.

## What this module delivers

- `Compilation.Proper`: states that a compilation can be in, while the fragments of some names are
  being compiled.
- `CompileM.Decided`: steps that succeed exactly if something holds, and lead to proper states.
- `Decided.bind`: one step after the other.
- `decided_refer`, `decided_checkTypeCondition`, `decided_compileField`, `decided_narrowScope`,
  `decided_compileSpread`: the parts of a selection.
- `compileSelections_decided`, `compileFragment_decided`: selections and fragments.
-/

set_option autoImplicit false

namespace QueryShape

open CompileM

variable {schema : Schema} {definitions : Table FragmentSource} {all : List Source.Definition}
  {path : List String}

/-! ## States of a compilation -/

/-- A state that a compilation can be in. The fragments in the table were compiled and resolve, and
those of the names on the path are not among them yet. -/
structure Compilation.Proper (schema : Schema) (definitions : Table FragmentSource)
    (all : List Source.Definition) (path : List String) (state : Compilation) : Prop where
  sound : state.fragments.Sound schema definitions
  closed : state.referenced.Closed schema
  resolvable : ∀ name id, state.fragments.idOf? name = some id →
    Source.Resolvable schema all name
  outside : ∀ name ∈ path, state.fragments.idOf? name = none

/-- Recording types in a closed set leaves a proper state behind. -/
theorem Compilation.Proper.withReferenced {state : Compilation}
    (h : state.Proper schema definitions all path) {referenced : NameSet}
    (hclosed : referenced.Closed schema) :
    ({ state with referenced } : Compilation).Proper schema definitions all path where
  sound := h.sound
  closed := hclosed
  resolvable := h.resolvable
  outside := h.outside

/-! ## Decided steps -/

namespace CompileM

variable {α β γ : Type} {proper : Compilation → Prop}

/-- A step is decided if, in every proper state, it succeeds with a result that looks like this
exactly if that holds, and it leads to proper states. -/
structure Decided (proper : Compilation → Prop) (step : CompileM α) (look : α → β)
    (fits : β → Prop) : Prop where
  succeeds : ∀ before view, proper before → fits view →
    ∃ result after, step.Succeeds before result after ∧ look result = view
  fits : ∀ before result after, proper before → step.Succeeds before result after →
    fits (look result)
  keeps : ∀ before result after, proper before → step.Succeeds before result after → proper after

/-- A step of which only its success is of interest. -/
abbrev DecidedBy (proper : Compilation → Prop) (step : CompileM α) (fits : Prop) : Prop :=
  Decided proper step (fun _ => ()) fun _ => fits

theorem Decided.congr {step : CompileM α} {look : α → β} {fits fits' : β → Prop}
    (h : Decided proper step look fits) (hiff : ∀ view, fits view ↔ fits' view) :
    Decided proper step look fits' :=
  (funext fun view => propext (hiff view) : fits = fits') ▸ h

/-- One step after the other. What is seen of the first result decides the second step. -/
theorem Decided.bind {step : CompileM α} {next : α → CompileM β} {δ : Type} {look : α → γ}
    {fits : γ → Prop} {look' : β → δ} (hstep : Decided proper step look fits)
    (fits' : γ → δ → Prop)
    (hnext : ∀ value, fits (look value) →
      Decided proper (next value) look' (fits' (look value))) :
    Decided proper (step >>= next) look' fun view => ∃ first, fits first ∧ fits' first view where
  succeeds := by
    rintro before view hbefore ⟨first, hfirst, hview⟩
    obtain ⟨value, middle, hvalue, rfl⟩ := hstep.succeeds before first hbefore hfirst
    have hmiddle := hstep.keeps before value middle hbefore hvalue
    obtain ⟨result, after, hresult, hlook⟩ := (hnext value hfirst).succeeds middle view hmiddle hview
    exact ⟨result, after, succeeds_bind.mpr ⟨value, middle, hvalue, hresult⟩, hlook⟩
  fits := by
    intro before result after hbefore h
    obtain ⟨value, middle, hvalue, hresult⟩ := succeeds_bind.mp h
    have hmiddle := hstep.keeps before value middle hbefore hvalue
    have hfirst := hstep.fits before value middle hbefore hvalue
    exact ⟨look value, hfirst, (hnext value hfirst).fits middle result after hmiddle hresult⟩
  keeps := by
    intro before result after hbefore h
    obtain ⟨value, middle, hvalue, hresult⟩ := succeeds_bind.mp h
    have hmiddle := hstep.keeps before value middle hbefore hvalue
    have hfirst := hstep.fits before value middle hbefore hvalue
    exact (hnext value hfirst).keeps middle result after hmiddle hresult

/-- The same where nothing is seen of the first result. -/
theorem DecidedBy.bind {step : CompileM α} {next : α → CompileM β} {look : β → γ} {holds : Prop}
    {fits : γ → Prop} (hstep : DecidedBy proper step holds)
    (hnext : ∀ value, holds → Decided proper (next value) look fits) :
    Decided proper (step >>= next) look fun view => holds ∧ fits view :=
  (Decided.bind hstep (fun _ => fits) hnext).congr fun _ => exists_const Unit

theorem DecidedBy.andThen {step : CompileM α} {next : α → CompileM β} {holds holds' : Prop}
    (hstep : DecidedBy proper step holds)
    (hnext : ∀ value, holds → DecidedBy proper (next value) holds') :
    DecidedBy proper (step >>= next) (holds ∧ holds') :=
  hstep.bind hnext

theorem decided_pure (value : α) (look : α → β) :
    Decided proper (pure value) look fun view => view = look value where
  succeeds before view _ hview := ⟨value, before, succeeds_pure.mpr ⟨rfl, rfl⟩, hview.symm⟩
  fits before result after _ h := by rw [(succeeds_pure.mp h).1]
  keeps before result after hbefore h := (succeeds_pure.mp h).2 ▸ hbefore

theorem decidedBy_pure (value : α) : DecidedBy proper (pure value) True :=
  (decided_pure value _).congr fun _ => by simp

/-- A step with something made of its result. -/
theorem DecidedBy.andPure {step : CompileM α} {holds : Prop} (h : DecidedBy proper step holds)
    (make : α → β) : DecidedBy proper (step >>= fun value => pure (make value)) holds :=
  (h.bind fun value _ => decidedBy_pure (make value)).congr fun _ => by simp

/-- A step that always fails. -/
theorem decided_of_failure {step : CompileM α} {look : α → β} {fits : β → Prop}
    (hfails : ∀ before result after, ¬ step.Succeeds before result after)
    (hnot : ∀ view, ¬ fits view) : Decided proper step look fits where
  succeeds _ view _ hview := absurd hview (hnot view)
  fits before result after _ h := absurd h (hfails before result after)
  keeps before result after _ h := absurd h (hfails before result after)

/-- A step that does not touch the state. -/
theorem decided_of_unchanged {step : CompileM α} {holds : α → Prop}
    (h : ∀ before result after, step.Succeeds before result after ↔
      holds result ∧ after = before) (look : α → β) :
    Decided proper step look fun view => ∃ result, holds result ∧ look result = view where
  succeeds := by
    rintro before view - ⟨result, hresult, hlook⟩
    exact ⟨result, before, (h before result before).mpr ⟨hresult, rfl⟩, hlook⟩
  fits before result after _ hstep := ⟨result, ((h before result after).mp hstep).1, rfl⟩
  keeps before result after hbefore hstep :=
    ((h before result after).mp hstep).2 ▸ hbefore

theorem decidedBy_directives {file : Option FileName} {source : List Source.Directive} :
    DecidedBy proper (directives schema file source) (schema.DeclaresAll source) :=
  (decided_of_unchanged (fun _ _ _ => succeeds_directives) _).congr fun _ => by
    simp only [and_true, exists_compileAll_iff]

theorem decidedBy_possibleTypesOf {name : String} :
    DecidedBy proper (possibleTypesOf schema name) ((schema.possibleTypes? name).isSome = true) :=
  (decided_of_unchanged (fun _ _ _ => succeeds_possibleTypesOf) _).congr fun _ => by
    simp only [and_true, Option.isSome_iff_exists]

theorem decided_typeNamed {name : String} :
    Decided proper (typeNamed schema name) id fun type => schema.type? name = some type :=
  (decided_of_unchanged (fun _ _ _ => succeeds_typeNamed) _).congr fun _ => by simp

end CompileM

/-! ## Selections -/

/-- Recording a reference succeeds if the type and all that it leads to are defined. -/
theorem decidedBy_refer {name : String} :
    DecidedBy (Compilation.Proper schema definitions all path) (refer schema name)
      (schema.DefinesAll name) where
  succeeds := by
    intro before _ _ hdefines
    obtain ⟨referenced, hadded⟩ := before.referenced.exists_addType hdefines
    exact ⟨(), _, succeeds_refer_iff.mpr ⟨referenced, hadded, rfl⟩, rfl⟩
  fits := by
    intro before result after hbefore h
    obtain ⟨referenced, hadded, -⟩ := succeeds_refer_iff.mp h
    exact (hbefore.closed.addType hadded).2
  keeps := by
    intro before result after hbefore h
    obtain ⟨referenced, hadded, rfl⟩ := succeeds_refer_iff.mp h
    exact hbefore.withReferenced (hbefore.closed.addType hadded).1

/-- A type condition succeeds if it names a composite type of which everything is defined. -/
theorem decided_checkTypeCondition {name : String} {location : Location} :
    Decided (Compilation.Proper schema definitions all path)
      (checkTypeCondition schema name location) id
      fun type => schema.type? name = some type ∧ type.isComposite = true ∧
        schema.DefinesAll name := by
  rw [checkTypeCondition]
  cases htype : schema.type? name with
  | none => exact decided_of_failure (fun _ _ _ => not_succeeds_undefined) (by simp)
  | some type =>
      cases hcomposite : type.isComposite with
      | false =>
          simp only [hcomposite, Bool.false_eq_true, if_false]
          refine decided_of_failure (fun _ _ _ => not_succeeds_malformed) ?_
          rintro _ ⟨heq, hother, -⟩
          rw [← Option.some.inj heq, hcomposite] at hother
          exact absurd hother Bool.false_ne_true
      | true =>
          simp only [hcomposite, if_true]
          refine (decidedBy_refer.bind fun _ _ => decided_pure type id).congr fun other => ?_
          simp only [id, Option.some.injEq]
          constructor
          · rintro ⟨hdefines, rfl⟩
            exact ⟨rfl, hcomposite, hdefines⟩
          · rintro ⟨rfl, -, hdefines⟩
            exact ⟨hdefines, rfl⟩

/-- A field succeeds if its type gives it and its directives are declared. -/
theorem decided_compileField {scope : Scope} {field : Source.Field} :
    Decided (Compilation.Proper schema definitions all path) (compileField schema scope field)
      Prod.snd (schema.HasField scope.parent field) := by
  have hensure : Decided (Compilation.Proper schema definitions all path)
      (ensure (schema.field? scope.parent field.name)) id
      fun definition? => schema.field? scope.parent field.name = .ok definition? :=
    (decided_of_unchanged (fun _ _ _ => succeeds_ensure) _).congr fun _ => by simp
  refine (hensure.bind (fun definition? type => ∃ definition, definition? = some definition ∧
      schema.type? definition.type.typeName = some type ∧
      schema.DefinesAll definition.type.typeName ∧ schema.DeclaresAll field.directives)
    fun definition? _ => ?_).congr fun type => ?_
  · cases definition? with
    | none => exact decided_of_failure (fun _ _ _ => not_succeeds_undefined) (by simp)
    | some definition =>
        -- Only the type of the field is seen of what comes out.
        refine (decided_typeNamed.bind (fun type other =>
            schema.DefinesAll definition.type.typeName ∧ schema.DeclaresAll field.directives ∧
              other = type) fun type _ => ?_).congr fun type => ?_
        · rw [ensure_arguments, pure_bind]
          exact decidedBy_refer.bind fun _ _ => decidedBy_directives.bind fun _ _ =>
            decided_pure _ _
        · simp only [id, Option.some.injEq, exists_eq_left']
          constructor
          · rintro ⟨_, htype, hdefines, hdeclares, rfl⟩
            exact ⟨htype, hdefines, hdeclares⟩
          · rintro ⟨htype, hdefines, hdeclares⟩
            exact ⟨type, htype, hdefines, hdeclares, rfl⟩
  · constructor
    · rintro ⟨_, hfield, definition, rfl, hneeds⟩
      exact ⟨definition, hfield, hneeds⟩
    · rintro ⟨definition, hfield, hneeds⟩
      exact ⟨_, hfield, definition, rfl, hneeds⟩

/-- A narrowed scope. -/
theorem decided_narrowScope {scope : Scope} {fragment : Source.InlineFragment} :
    Decided (Compilation.Proper schema definitions all path) (narrowScope schema scope fragment)
      Scope.parent (schema.Narrows scope.parent fragment.typeCondition) := by
  rw [narrowScope]
  cases fragment.typeCondition with
  | none => exact decided_pure scope Scope.parent
  | some name =>
      refine (decided_checkTypeCondition.bind (fun type inner =>
          (schema.possibleTypes? name).isSome = true ∧ inner = type) fun type _ =>
        decidedBy_possibleTypesOf.bind fun _ _ => decided_pure _ Scope.parent).congr
        fun inner => ?_
      constructor
      · rintro ⟨_, ⟨htype, hcomposite, hdefines⟩, hpossible, rfl⟩
        exact ⟨htype, hcomposite, hpossible, hdefines⟩
      · rintro ⟨htype, hcomposite, hpossible, hdefines⟩
        exact ⟨inner, ⟨htype, hcomposite, hdefines⟩, hpossible, rfl⟩

/-- A resolver that succeeds exactly on names that resolve. -/
def Resolver.Decides (schema : Schema) (definitions : Table FragmentSource)
    (all : List Source.Definition) (path : List String) (resolve : Resolver) (name : String) :
    Prop :=
  ∀ location, DecidedBy (Compilation.Proper schema definitions all path) (resolve name location)
    (Source.Resolvable schema all name)

section Selections

variable {resolve : Resolver}

/-- A spread succeeds if its name resolves: the fragment is in the table by then. -/
theorem decidedBy_compileSpread (hcorrect : resolve.Correct schema definitions path)
    {scope : Scope} {spread : Source.Spread}
    (hresolve : resolve.Decides schema definitions all path spread.name) :
    DecidedBy (Compilation.Proper schema definitions all path)
      (compileSpread schema resolve scope spread)
      (Source.Resolvable schema all spread.name ∧ schema.DeclaresAll spread.directives) := by
  have hspread : ∀ {before after : Compilation} {head : SpreadSelection},
      (compileSpread schema resolve scope spread).Succeeds before head after ↔
        ∃ id fragment directives,
          (resolve spread.name (.source scope.file spread.position)).Succeeds before id after ∧
          after.fragments.get? id = some fragment ∧
          AppliedDirective.compileAll schema scope.file spread.directives = .ok directives ∧
          head = ⟨id, spread.name, directives, fragment.selections.possible ∩ scope.possible,
            .source scope.file spread.position⟩ := by
    intro before after head
    simp only [compileSpread, succeeds_bind, succeeds_get, succeeds_ensure, succeeds_directives,
      succeeds_pure, FragmentTable.resolve_eq_ok]
    constructor
    · rintro ⟨id, _, hid, _, _, ⟨rfl, rfl⟩, fragment, _, ⟨hget, rfl⟩, directives, _,
        ⟨hdirectives, rfl⟩, rfl, rfl⟩
      exact ⟨id, fragment, directives, hid, hget, hdirectives, rfl⟩
    · rintro ⟨id, fragment, directives, hid, hget, hdirectives, rfl⟩
      exact ⟨id, after, hid, _, _, ⟨rfl, rfl⟩, fragment, _, ⟨hget, rfl⟩, directives, _,
        ⟨hdirectives, rfl⟩, rfl, rfl⟩
  constructor
  · rintro before - hbefore ⟨hname, hdeclared⟩
    obtain ⟨id, after, hid, -⟩ := (hresolve _).succeeds before () hbefore hname
    obtain ⟨-, hnamed⟩ := hcorrect _ _ _ _ _ hid hbefore.sound
    obtain ⟨fragment, hget, -⟩ := FragmentTable.exists_get?_of_idOf? hnamed
    obtain ⟨directives, hdirectives⟩ := exists_compileAll_iff.mpr hdeclared
    exact ⟨_, after, hspread.mpr ⟨id, fragment, directives, hid, hget, hdirectives, rfl⟩, rfl⟩
  · intro before head after hbefore h
    obtain ⟨id, fragment, directives, hid, -, hdirectives, -⟩ := hspread.mp h
    exact ⟨(hresolve _).fits before id after hbefore hid,
      exists_compileAll_iff.mp ⟨directives, hdirectives⟩⟩
  · intro before head after hbefore h
    obtain ⟨id, fragment, directives, hid, -⟩ := hspread.mp h
    exact (hresolve _).keeps before id after hbefore hid

/-- Selections need to fit, and the names that they spread to resolve. -/
abbrev NeedsAll (schema : Schema) (all : List Source.Definition) (parent : NamedType)
    (seen : NameSet) (selections : List Source.Selection) : Prop :=
  Source.Selection.AllFit schema parent seen selections ∧
    ∀ name ∈ Source.Selection.spreadsIn selections, Source.Resolvable schema all name

/-- A field with its nested selections succeeds if these do on its type. -/
theorem decidedBy_compileSelection_field {scope : Scope} {seen : NameSet} {field : Source.Field}
    {selections : List Source.Selection}
    (hnested : ∀ inner : Scope, DecidedBy (Compilation.Proper schema definitions all path)
      (compileSelections schema resolve inner .empty selections)
      (NeedsAll schema all inner.parent .empty selections)) :
    DecidedBy (Compilation.Proper schema definitions all path)
      (compileSelection schema resolve scope seen (.field field selections))
      ((Source.Selection.field field selections).Fits schema scope.parent seen ∧
        ∀ name ∈ Source.Selection.spreadsIn selections, Source.Resolvable schema all name) := by
  rw [compileSelection]
  refine (decided_compileField.bind (fun type _ => (type.isComposite = true ↔ selections ≠ []) ∧
      (type.isComposite = true → (schema.possibleTypes? type.name).isSome = true ∧
        NeedsAll schema all type .empty selections)) ?_).congr fun _ => ?_
  · rintro ⟨head, type⟩ _
    -- Only a composite type takes selections, and it needs some.
    cases hcomposite : type.isComposite with
    | false =>
        cases selections with
        | nil =>
            simp only [hcomposite, List.isEmpty_nil]
            exact (decidedBy_pure _).congr fun _ => by simp
        | cons first rest =>
            simp only [hcomposite, List.isEmpty_cons]
            exact decided_of_failure (fun _ _ _ => not_succeeds_malformed) (by simp)
    | true =>
        cases selections with
        | nil =>
            simp only [hcomposite, List.isEmpty_nil]
            exact decided_of_failure (fun _ _ _ => not_succeeds_malformed) (by simp)
        | cons first rest =>
            simp only [hcomposite, List.isEmpty_cons]
            have hinner : ∀ possible, DecidedBy (Compilation.Proper schema definitions all path)
                (compileSelections schema resolve ⟨scope.file, type, possible⟩ .empty
                  (first :: rest)) (NeedsAll schema all type .empty (first :: rest)) :=
              fun possible => hnested ⟨scope.file, type, possible⟩
            refine (decidedBy_possibleTypesOf.andThen fun possible _ =>
              (hinner possible).andPure _).congr fun _ => ?_
            simp
  · rw [Source.Selection.Fits]
    constructor
    · rintro ⟨type, hfield, hiff, hneeds⟩
      refine ⟨⟨type, hfield, hiff, fun hcomposite => ?_⟩, ?_⟩
      · exact ⟨(hneeds hcomposite).1, (hneeds hcomposite).2.1⟩
      · -- Without selections nothing is spread.
        cases hcomposite : type.isComposite with
        | false =>
            have hnone : selections = [] := by simpa [hcomposite] using hiff
            rw [hnone]
            exact fun _ hmem => absurd hmem List.not_mem_nil
        | true => exact (hneeds hcomposite).2.2
    · rintro ⟨⟨type, hfield, hiff, hfits⟩, hspreads⟩
      exact ⟨type, hfield, hiff, fun hcomposite =>
        ⟨(hfits hcomposite).1, (hfits hcomposite).2, hspreads⟩⟩

/-- What a selection spreads itself is left out of those behind it. -/
theorem compileSelections_cons {scope : Scope} {seen : NameSet} {first : Source.Selection}
    {rest : List Source.Selection} :
    compileSelections schema resolve scope seen (first :: rest) = (do
      let compiled ← compileSelection schema resolve scope seen first
      let others ← compileSelections schema resolve scope (seenBehind seen first) rest
      pure (compiled.toList ++ others)) := by
  rw [compileSelections.eq_def]
  cases first with
  | field head selections => rfl
  | spread head => rfl
  | inline head selections => rfl

/-- If the names spread before resolve, so do those spread before the selections behind. -/
theorem resolvable_seenBehind {seen : NameSet} {first : Source.Selection}
    (hseen : ∀ name ∈ seen.names, Source.Resolvable schema all name)
    (hfirst : ∀ name ∈ first.spreads, Source.Resolvable schema all name) :
    ∀ name ∈ (seenBehind seen first).names, Source.Resolvable schema all name := by
  cases first with
  | field head selections => exact hseen
  | inline head selections => exact hseen
  | spread head =>
      exact NameSet.forall_mem_insert.mpr ⟨hseen, hfirst head.name List.mem_cons_self⟩

mutual

/-- A selection is decided. What was spread before it resolves. -/
theorem compileSelection_decided (hcorrect : resolve.Correct schema definitions path)
    (selection : Source.Selection) {scope : Scope} {seen : NameSet}
    (hresolve : ∀ name ∈ selection.spreads, resolve.Decides schema definitions all path name)
    (hseen : ∀ name ∈ seen.names, Source.Resolvable schema all name) :
    DecidedBy (Compilation.Proper schema definitions all path)
      (compileSelection schema resolve scope seen selection)
      (selection.Fits schema scope.parent seen ∧
        ∀ name ∈ selection.spreads, Source.Resolvable schema all name) := by
  cases selection with
  | field head selections =>
      exact decidedBy_compileSelection_field fun inner =>
        compileSelections_decided hcorrect selections hresolve nofun
  | spread head =>
      rw [compileSelection]
      simp only [Source.Selection.Fits, Source.Selection.spreads, List.forall_mem_singleton]
      cases hrepeated : seen.contains head.name with
      | true =>
          -- The spread is left out, so only what was spread before tells that its name resolves.
          have hname : Source.Resolvable schema all head.name :=
            hseen head.name (NameSet.contains_iff_mem.mp hrepeated)
          simp only [if_true]
          exact (decidedBy_pure _).congr fun _ => by simp [hname]
      | false =>
          simp only [Bool.false_eq_true, if_false]
          refine ((decidedBy_compileSpread hcorrect
            (hresolve _ List.mem_cons_self)).andPure _).congr fun _ => ?_
          simp [and_comm]
  | inline head selections =>
      rw [compileSelection]
      refine (decided_narrowScope.bind (fun inner _ => schema.DeclaresAll head.directives ∧
          NeedsAll schema all inner seen selections) fun inner _ =>
        decidedBy_directives.bind fun _ _ =>
          (compileSelections_decided hcorrect selections hresolve hseen).andPure _).congr
            fun _ => ?_
      simp only [Source.Selection.Fits, Source.Selection.spreads]
      constructor
      · rintro ⟨inner, hinner, hdeclared, hfits, hspreads⟩
        exact ⟨⟨inner, hinner, hdeclared, hfits⟩, hspreads⟩
      · rintro ⟨⟨inner, hinner, hdeclared, hfits⟩, hspreads⟩
        exact ⟨inner, hinner, hdeclared, hfits, hspreads⟩

/-- Selections succeed if they fit and the names that they spread resolve. -/
theorem compileSelections_decided (hcorrect : resolve.Correct schema definitions path)
    (selections : List Source.Selection) {scope : Scope} {seen : NameSet}
    (hresolve : ∀ name ∈ Source.Selection.spreadsIn selections,
      resolve.Decides schema definitions all path name)
    (hseen : ∀ name ∈ seen.names, Source.Resolvable schema all name) :
    DecidedBy (Compilation.Proper schema definitions all path)
      (compileSelections schema resolve scope seen selections)
      (NeedsAll schema all scope.parent seen selections) := by
  cases selections with
  | nil =>
      rw [compileSelections]
      exact (decidedBy_pure _).congr fun _ =>
        by simp [NeedsAll, Source.Selection.AllFit, Source.Selection.spreadsIn]
  | cons first rest =>
      obtain ⟨hfirst, hrest⟩ := List.forall_mem_append.mp hresolve
      rw [compileSelections_cons]
      refine (DecidedBy.andThen (compileSelection_decided hcorrect first hfirst hseen) fun _ hfits =>
        (compileSelections_decided hcorrect rest hrest
          (resolvable_seenBehind hseen hfits.2)).andPure _).congr fun _ => ?_
      simp only [NeedsAll, Source.Selection.AllFit, Source.Selection.spreadsIn,
        List.forall_mem_append]
      tauto

end

/-- A fragment succeeds if it fits and the names that it spreads resolve. -/
theorem compileFragment_decided (hcorrect : resolve.Correct schema definitions path)
    {source : FragmentSource}
    (hresolve : ∀ name ∈ Source.Selection.spreadsIn source.fragment.selections,
      resolve.Decides schema definitions all path name) :
    DecidedBy (Compilation.Proper schema definitions all path)
      (compileFragment schema resolve source)
      (source.fragment.Fits schema ∧
        ∀ name ∈ Source.Selection.spreadsIn source.fragment.selections,
          Source.Resolvable schema all name) := by
  have hselections : ∀ type possible, DecidedBy (Compilation.Proper schema definitions all path)
      (compileSelections schema resolve ⟨source.file, type, possible⟩ .empty
        source.fragment.selections)
      (NeedsAll schema all type .empty source.fragment.selections) :=
    fun type possible => compileSelections_decided hcorrect _ hresolve nofun
  rw [compileFragment]
  refine (decided_checkTypeCondition.bind (fun type _ =>
      (schema.possibleTypes? source.fragment.typeCondition).isSome = true ∧
        schema.DeclaresAll source.fragment.directives ∧
        NeedsAll schema all type .empty source.fragment.selections) fun type _ =>
    decidedBy_possibleTypesOf.andThen fun possible _ => decidedBy_directives.andThen fun _ _ =>
      (hselections type possible).andPure _).congr fun _ => ?_
  rw [Source.Fragment.Fits]
  constructor
  · rintro ⟨type, ⟨htype, hcomposite, hdefines⟩, hpossible, hdeclared, hfits, hspreads⟩
    exact ⟨⟨type, ⟨htype, hcomposite, hpossible, hdefines⟩, hdeclared, hfits⟩, hspreads⟩
  · rintro ⟨⟨type, ⟨htype, hcomposite, hpossible, hdefines⟩, hdeclared, hfits⟩, hspreads⟩
    exact ⟨type, ⟨htype, hcomposite, hdefines⟩, hpossible, hdeclared, hfits, hspreads⟩

end Selections

end QueryShape
