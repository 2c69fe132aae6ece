import QueryShape.Selection.Directive

/-!
# Conditions on selections

The directives `@include` and `@skip` make a selection depend on a truth value. They
never remove anything here: they mark what they stand on as possibly absent.

## What this module delivers

- `Condition`: an `@include` or `@skip` with a literal or a variable.
- `Condition.ofDirective?`: reads a condition from a directive.
- `Condition.isAlwaysSatisfied`: conditions that exclude nothing.
- `conditionsOf`: the conditions in a list of directives that may exclude something.
- `conditionsOf_map_directive`: conditions can be written as directives and read again.
-/

set_option autoImplicit false

namespace QueryShape

/-- Which way a condition works. -/
inductive ConditionKind where
  | includeIf
  | skipIf
deriving DecidableEq, Repr, Inhabited

/-- What decides a condition. -/
inductive ConditionValue where
  | literal (value : Bool)
  | variable (name : String)
deriving DecidableEq, Repr, Inhabited

/-- A condition on a selection, with the directive that states it. -/
structure Condition where
  directive : AppliedDirective
  kind : ConditionKind
  value : ConditionValue
deriving BEq, Inhabited

namespace Condition

/-- The kind of condition that a directive of a name states. -/
def kindOf? (name : String) : Option ConditionKind :=
  if name = "include" then some .includeIf
  else if name = "skip" then some .skipIf
  else none

/-- The condition that a directive states. There is none if the directive has another
name, or if its first argument named `if` is neither a truth value nor a variable. -/
def ofDirective? (directive : AppliedDirective) : Option Condition := do
  let kind ← kindOf? directive.name
  let argument ← directive.argument? "if"
  match argument.value with
  | .bool value => some ⟨directive, kind, .literal value⟩
  | .variable name => some ⟨directive, kind, .variable name⟩
  | _ => none

/-- Including if true and skipping if false exclude nothing. -/
def isAlwaysSatisfied (condition : Condition) : Bool :=
  match condition.kind, condition.value with
  | .includeIf, .literal true => true
  | .skipIf, .literal false => true
  | _, _ => false

/-- Whether a condition holds when the variables have the given truth values. -/
def holds (condition : Condition) (assignment : String → Bool) : Bool :=
  let value := match condition.value with
    | .literal value => value
    | .variable name => assignment name
  match condition.kind with
  | .includeIf => value
  | .skipIf => !value

end Condition

/-- The conditions among directives, in order, without those that exclude nothing. -/
def conditionsOf (directives : List AppliedDirective) : List Condition :=
  (directives.filterMap Condition.ofDirective?).filter (fun c => !c.isAlwaysSatisfied)

/-- A condition remembers the directive that states it. -/
theorem Condition.directive_of_ofDirective? {directive : AppliedDirective} {condition : Condition}
    (h : Condition.ofDirective? directive = some condition) : condition.directive = directive := by
  simp only [Condition.ofDirective?, Option.bind_eq_bind, Option.bind_eq_some_iff] at h
  obtain ⟨kind, -, argument, -, h⟩ := h
  split at h
  · exact congrArg Condition.directive (Option.some.inj h).symm
  · exact congrArg Condition.directive (Option.some.inj h).symm
  · exact absurd h.symm (Option.some_ne_none condition)

theorem conditionsOf_cons (directive : AppliedDirective) (rest : List AppliedDirective) :
    conditionsOf (directive :: rest) =
      ((Condition.ofDirective? directive).filter fun c => !c.isAlwaysSatisfied).toList ++
        conditionsOf rest := by
  unfold conditionsOf
  cases hdirective : Condition.ofDirective? directive with
  | none => simp [hdirective]
  | some condition =>
      cases halways : condition.isAlwaysSatisfied with
      | true => simp [hdirective, Option.filter, halways]
      | false => simp [hdirective, Option.filter, halways]

/-- Conditions can be read off their directives again. -/
theorem conditionsOf_map_directive (directives : List AppliedDirective) :
    conditionsOf ((conditionsOf directives).map Condition.directive) = conditionsOf directives := by
  induction directives with
  | nil => rfl
  | cons directive rest ih =>
      rw [conditionsOf_cons]
      cases hdirective : (Condition.ofDirective? directive).filter
          fun c => !c.isAlwaysSatisfied with
      | none => exact ih
      | some condition =>
          have hstated := Option.eq_some_of_filter_eq_some hdirective
          rw [Option.toList_some, List.singleton_append, List.map_cons,
            Condition.directive_of_ofDirective? hstated, conditionsOf_cons, hdirective, ih]
          rfl

end QueryShape
