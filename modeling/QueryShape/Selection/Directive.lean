import QueryShape.CompileError
import QueryShape.Schema.Basic

/-!
# Arguments and directives of a compiled document

## What this module delivers

- `Argument`: an argument with its value, and with its declared type where one is
  declared.
- `AppliedDirective`: a directive applied to an operation, a fragment or a selection.
- `Argument.compileAll`, `AppliedDirective.compile`: arguments and directives of a document.
  A directive and its arguments have to be declared.
- `Argument.resolveAll`: what `Argument.compileAll` gives, because all literals fit.
-/

set_option autoImplicit false

namespace QueryShape

/-- An argument. The type is missing where the schema declares no such parameter. -/
structure Argument where
  name : String
  type : Option TypeRef
  value : Value
deriving BEq, Inhabited

/-- A directive applied in a document. -/
structure AppliedDirective where
  location : Location
  name : String
  arguments : List Argument
deriving BEq, Inhabited

/-- The first argument with a name. -/
def AppliedDirective.argument? (directive : AppliedDirective) (name : String) :
    Option Argument :=
  directive.arguments.find? (fun argument => argument.name == name)

/-- The arguments of a field. Their names are not checked: a field may get arguments that it
does not declare. -/
def Argument.compileAll (parameters : Table Parameter)
    (arguments : List (String × Source.Value)) : Except InvariantError (List Argument) :=
  arguments.mapM fun (name, written) => do
    .ok ⟨name, (parameters.get? name).map Parameter.type, ← Value.ofSource written⟩

/-- The arguments of a field with the values that are written. -/
def Argument.resolveAll (parameters : Table Parameter)
    (arguments : List (String × Source.Value)) : List Argument :=
  arguments.map fun (name, written) =>
    ⟨name, (parameters.get? name).map Parameter.type, written.resolved⟩

theorem Argument.compileAll_eq (parameters : Table Parameter)
    (arguments : List (String × Source.Value)) :
    compileAll parameters arguments = .ok (resolveAll parameters arguments) := by
  have hargument : (fun (argument : String × Source.Value) => do
        .ok ⟨argument.1, (parameters.get? argument.1).map Parameter.type,
          ← Value.ofSource argument.2⟩) =
      fun argument => (pure ⟨argument.1, (parameters.get? argument.1).map Parameter.type,
        argument.2.resolved⟩ : Except InvariantError Argument) := by
    funext argument
    rw [Value.ofSource_eq]
    rfl
  rw [compileAll, resolveAll, hargument, List.mapM_pure]
  rfl

namespace AppliedDirective

/-- An argument of a directive, which has to be declared. -/
def compileArgument (definition : DirectiveDefinition) (location : Location)
    (argument : String × Source.Value) : Except CompileError Argument :=
  match definition.parameters.get? argument.1 with
  | none => .error (.reference (.undefinedDirectiveArgument definition.name argument.1 location))
  | some parameter => do
      let value ← (Value.ofSource argument.2).mapError .invariant
      .ok ⟨argument.1, some parameter.type, value⟩

/-- A declared argument has the value that is written. -/
theorem compileArgument_eq (definition : DirectiveDefinition) (location : Location)
    (argument : String × Source.Value) :
    compileArgument definition location argument =
      match definition.parameters.get? argument.1 with
      | none =>
          .error (.reference (.undefinedDirectiveArgument definition.name argument.1 location))
      | some parameter => .ok ⟨argument.1, some parameter.type, argument.2.resolved⟩ := by
  rw [compileArgument, Value.ofSource_eq]
  rfl

/-- A directive as applied in a file. -/
def compile (schema : Schema) (file : Option FileName) (directive : Source.Directive) :
    Except CompileError AppliedDirective := do
  let location := Location.source file directive.position
  match schema.directive? directive.name with
  | none => .error (.reference (.undefinedDirective directive.name location))
  | some definition => do
      let arguments ← directive.arguments.mapM (compileArgument definition location)
      .ok ⟨location, directive.name, arguments⟩

/-- Directives as applied in a file, in order. -/
def compileAll (schema : Schema) (file : Option FileName) (directives : List Source.Directive) :
    Except CompileError (List AppliedDirective) :=
  directives.mapM (compile schema file)

end AppliedDirective

end QueryShape
