import QueryShape.Executable.Compile

/-!
# Successful steps of a compilation

A step of a compilation succeeds with a result and a next state, or it fails. The lemmas
here say, for each way to build a step, what its success means. They take a successful run
apart without unfolding the monad.

## What this module delivers

- `CompileM.Succeeds`: a step succeeds with a result and a next state.
- `succeeds_bind`, `succeeds_pure`, `succeeds_get`, `succeeds_set`: the monad.
- `ensure_arguments`, `ensure_defaultValue`: values never fail.
- `not_succeeds_undefined`, `not_succeeds_malformed`, `succeeds_ensure`, `succeeds_refer_iff`,
  `succeeds_directives`, `succeeds_typeNamed`, `succeeds_possibleTypesOf`,
  `checkTypeCondition_cases`: the steps that all parts share.
-/

set_option autoImplicit false

namespace QueryShape

namespace CompileM

variable {α β : Type} {before after : Compilation}

/-- A step leads from one state to another with a result. -/
def Succeeds (step : CompileM α) (before : Compilation) (result : α) (after : Compilation) : Prop :=
  step.run before = .ok (result, after)

/-! ## The monad -/

theorem succeeds_bind {step : CompileM α} {next : α → CompileM β} {result : β} :
    (step >>= next).Succeeds before result after ↔
      ∃ value middle, step.Succeeds before value middle ∧
        (next value).Succeeds middle result after := by
  rw [Succeeds, StateT.run_bind, bind_eq_ok, Prod.exists]
  rfl

@[simp] theorem succeeds_pure {value result : α} :
    (pure value : CompileM α).Succeeds before result after ↔ result = value ∧ after = before := by
  constructor
  · intro h
    cases h
    exact ⟨rfl, rfl⟩
  · rintro ⟨rfl, rfl⟩
    rfl

theorem succeeds_pure_ok {ε : Type} {value result : α} :
    (pure value : CompileM α).Succeeds before result after ↔
      (.ok value : Except ε α) = .ok result ∧ after = before := by
  rw [succeeds_pure, Except.ok.injEq, eq_comm]

theorem succeeds_pure_some {value result : α} :
    (pure value : CompileM α).Succeeds before result after ↔
      some value = some result ∧ after = before := by
  rw [succeeds_pure, Option.some.injEq, eq_comm]

@[simp] theorem succeeds_get {result : Compilation} :
    (get : CompileM Compilation).Succeeds before result after ↔
      result = before ∧ after = before := by
  constructor
  · intro h
    cases h
    exact ⟨rfl, rfl⟩
  · rintro ⟨rfl, rfl⟩
    rfl

@[simp] theorem succeeds_set {state : Compilation} {result : PUnit} :
    (set state : CompileM PUnit).Succeeds before result after ↔ after = state := by
  constructor
  · intro h
    cases h
    rfl
  · rintro rfl
    rfl

@[simp] theorem not_succeeds_undefined {error : ReferenceError} {result : α} :
    ¬ (undefined error : CompileM α).Succeeds before result after :=
  fun h => nomatch h

@[simp] theorem not_succeeds_malformed {error : StructureError} {result : α} :
    ¬ (malformed error : CompileM α).Succeeds before result after :=
  fun h => nomatch h

@[simp] theorem succeeds_ensure {value : Except InvariantError α} {result : α} :
    (ensure value).Succeeds before result after ↔ value = .ok result ∧ after = before := by
  cases value with
  | error error => exact ⟨fun h => (nomatch h), fun h => (nomatch h.1)⟩
  | ok value => exact succeeds_pure_ok

/-! ## Shared steps -/

/-- Every written value is a value, so the arguments of a field cannot fail. -/
theorem ensure_arguments (parameters : Table Parameter) (arguments : List (String × Source.Value)) :
    ensure (Argument.compileAll parameters arguments) =
      pure (Argument.resolveAll parameters arguments) := by
  rw [Argument.compileAll_eq]
  rfl

/-- Nor can the default value of a variable. -/
theorem ensure_defaultValue (written : Option Source.Value) :
    ensure (written.mapM Value.ofSource) = pure (written.map Source.Value.resolved) := by
  rw [Value.mapM_ofSource]
  rfl

variable {schema : Schema}

/-- Recording a reference adds the type to those that are referred to. -/
theorem succeeds_refer_iff {type : String} {result : Unit} :
    (refer schema type).Succeeds before result after ↔
      ∃ referenced, before.referenced.addType schema type = .ok referenced ∧
        after = { before with referenced } := by
  simp only [refer, succeeds_bind, succeeds_get, succeeds_ensure, succeeds_set]
  constructor
  · rintro ⟨_, _, ⟨rfl, rfl⟩, referenced, _, ⟨hadded, rfl⟩, rfl⟩
    exact ⟨referenced, hadded, rfl⟩
  · rintro ⟨referenced, hadded, rfl⟩
    exact ⟨_, _, ⟨rfl, rfl⟩, referenced, _, ⟨hadded, rfl⟩, rfl⟩

/-- Recording a reference does not touch the fragments. -/
theorem succeeds_refer {type : String} {result : Unit}
    (h : (refer schema type).Succeeds before result after) : after.fragments = before.fragments := by
  obtain ⟨_, -, rfl⟩ := succeeds_refer_iff.mp h
  rfl

@[simp] theorem succeeds_directives {file : Option FileName} {source : List Source.Directive}
    {result : List AppliedDirective} :
    (directives schema file source).Succeeds before result after ↔
      AppliedDirective.compileAll schema file source = .ok result ∧ after = before := by
  rw [directives]
  cases AppliedDirective.compileAll schema file source with
  | error error => exact ⟨fun h => (nomatch h), fun h => (nomatch h.1)⟩
  | ok value => exact succeeds_pure_ok

@[simp] theorem succeeds_typeNamed {name : String} {result : NamedType} :
    (typeNamed schema name).Succeeds before result after ↔
      schema.type? name = some result ∧ after = before := by
  rw [typeNamed]
  cases schema.type? name with
  | none => exact ⟨fun h => (nomatch h), fun h => (nomatch h.1)⟩
  | some type => exact succeeds_pure_some

@[simp] theorem succeeds_possibleTypesOf {name : String} {result : PossibleTypes} :
    (possibleTypesOf schema name).Succeeds before result after ↔
      schema.possibleTypes? name = some result ∧ after = before := by
  rw [possibleTypesOf]
  cases schema.possibleTypes? name with
  | none => exact ⟨fun h => (nomatch h), fun h => (nomatch h.1)⟩
  | some possible => exact succeeds_pure_some

/-- A type condition names a composite type, which is recorded. -/
theorem checkTypeCondition_cases {name : String} {location : Location} {result : NamedType}
    (h : (checkTypeCondition schema name location).Succeeds before result after) :
    schema.type? name = some result ∧ result.isComposite = true ∧
      (refer schema name).Succeeds before () after := by
  rw [checkTypeCondition] at h
  cases htype : schema.type? name with
  | none =>
      rw [htype] at h
      exact absurd h not_succeeds_undefined
  | some type =>
      simp only [htype] at h
      split at h
      · next hcomposite =>
          simp only [succeeds_bind, succeeds_pure] at h
          obtain ⟨_, _, hrefer, rfl, rfl⟩ := h
          exact ⟨rfl, hcomposite, hrefer⟩
      · exact absurd h not_succeeds_malformed

theorem succeeds_checkTypeCondition {name : String} {location : Location} {result : NamedType}
    (h : (checkTypeCondition schema name location).Succeeds before result after) :
    schema.type? name = some result ∧ result.isComposite = true ∧
      after.fragments = before.fragments := by
  obtain ⟨htype, hcomposite, hrefer⟩ := checkTypeCondition_cases h
  exact ⟨htype, hcomposite, succeeds_refer hrefer⟩

end CompileM

end QueryShape
