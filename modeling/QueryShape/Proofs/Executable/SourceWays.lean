import QueryShape.Proofs.CollectFields

/-!
# Ways through selections as written

As long as nothing is compiled, a way through selections is a matter of names: spreads refer to
definitions in the documents, and type conditions to types of the schema. A way is free if no
directive on it can exclude anything. Compiling leaves out a spread of a name that was spread
before on the way to it, and asks for nothing else; a first way is a free way on which that
happens to no spread.

## What this module delivers

- `Source.Directive.mayExclude`, `Source.Harmless`: directives that can exclude something.
- `conditionsOf_eq_nil_iff`: compiled directives state conditions if some of them can.
- `Source.FreeWay`, `Source.FirstWay`: ways on which nothing can be excluded.
-/

set_option autoImplicit false

namespace QueryShape

/-! ## Directives -/

/-- Whether a directive can exclude what it stands on: an `@include` or `@skip` whose first
argument named `if` is a variable, or the truth value that excludes. -/
def Source.Directive.mayExclude (directive : Source.Directive) : Bool :=
  match Condition.kindOf? directive.name,
    (directive.arguments.find? fun argument => argument.1 == "if").map Prod.snd with
  | some _, some (.variable _) => true
  | some .includeIf, some (.bool value) => !value
  | some .skipIf, some (.bool value) => value
  | _, _ => false

/-- No directive can exclude anything. -/
def Source.Harmless (directives : List Source.Directive) : Prop :=
  ∀ directive ∈ directives, directive.mayExclude = false

/-- Mapping to results that succeeds as a whole succeeds for each entry. -/
theorem forall₂_of_mapM_eq_ok {α β ε : Type} {f : α → Except ε β} {list : List α}
    {results : List β} (h : list.mapM f = .ok results) :
    List.Forall₂ (fun entry result => f entry = .ok result) list results := by
  induction list generalizing results with
  | nil =>
      rw [List.mapM_nil] at h
      cases h
      exact .nil
  | cons entry rest ih =>
      rw [List.mapM_cons] at h
      obtain ⟨result, hentry, h⟩ := bind_eq_ok.mp h
      obtain ⟨others, hrest, h⟩ := bind_eq_ok.mp h
      cases h
      exact .cons hentry (ih hrest)

section Directives

variable {schema : Schema} {file : Option FileName}

theorem compileArgument_eq_ok {definition : DirectiveDefinition} {location : Location}
    {argument : String × Source.Value} {compiled : Argument}
    (h : AppliedDirective.compileArgument definition location argument = .ok compiled) :
    compiled.name = argument.1 ∧ compiled.value = argument.2.resolved := by
  rw [AppliedDirective.compileArgument_eq] at h
  split at h
  · exact absurd h (by simp)
  · cases h
    exact ⟨rfl, rfl⟩

/-- Compiled arguments are found under the same names, with the same values. -/
theorem find?_compiledArguments {definition : DirectiveDefinition} {location : Location}
    {arguments : List (String × Source.Value)} {compiled : List Argument}
    (h : List.Forall₂ (fun argument result =>
      AppliedDirective.compileArgument definition location argument = .ok result)
      arguments compiled) (name : String) :
    (compiled.find? fun argument => argument.name == name).map Argument.value =
      (arguments.find? fun argument => argument.1 == name).map fun argument =>
        argument.2.resolved := by
  induction h with
  | nil => rfl
  | cons hone _ ih =>
      obtain ⟨hname, hvalue⟩ := compileArgument_eq_ok hone
      rw [List.find?_cons, List.find?_cons, hname]
      split
      · rw [Option.map_some, Option.map_some, hvalue]
      · exact ih

/-- Compiling a directive keeps its name, and what is written as its arguments. -/
theorem argument?_of_compile {directive : Source.Directive} {compiled : AppliedDirective}
    (h : AppliedDirective.compile schema file directive = .ok compiled) :
    compiled.name = directive.name ∧ ∀ name, (compiled.argument? name).map Argument.value =
      (directive.arguments.find? fun argument => argument.1 == name).map fun argument =>
        argument.2.resolved := by
  rw [AppliedDirective.compile] at h
  cases hdefinition : schema.directive? directive.name with
  | none =>
      rw [hdefinition] at h
      exact absurd h (by simp)
  | some definition =>
      rw [hdefinition] at h
      obtain ⟨arguments, harguments, h⟩ := bind_eq_ok.mp h
      cases h
      exact ⟨rfl, find?_compiledArguments (forall₂_of_mapM_eq_ok harguments)⟩

/-- A compiled directive states a condition that counts if it can exclude something. -/
theorem ofDirective?_eq_none_iff {directive : Source.Directive} {compiled : AppliedDirective}
    (h : AppliedDirective.compile schema file directive = .ok compiled) :
    ((Condition.ofDirective? compiled).filter fun c => !c.isAlwaysSatisfied) = none ↔
      directive.mayExclude = false := by
  obtain ⟨hname, harguments⟩ := argument?_of_compile h
  have hargument := harguments "if"
  rw [Source.Directive.mayExclude, ← hname, Condition.ofDirective?]
  cases Condition.kindOf? compiled.name with
  | none => simp
  | some kind =>
      cases hwritten : directive.arguments.find? fun argument => argument.1 == "if" with
      | none =>
          rw [hwritten, Option.map_none, Option.map_eq_none_iff] at hargument
          simp [hargument]
      | some written =>
          rw [hwritten, Option.map_some, Option.map_eq_some_iff] at hargument
          obtain ⟨argument, hfound, hvalue⟩ := hargument
          obtain ⟨name, written⟩ := written
          -- The compiled argument has the form of the one that is written.
          cases written
          case bool value =>
            cases kind <;> cases value <;>
              simp [hfound, hvalue, Source.Value.resolved, Option.filter,
                Condition.isAlwaysSatisfied]
          all_goals
            cases kind <;>
              simp [hfound, hvalue, Source.Value.resolved, Option.filter,
                Condition.isAlwaysSatisfied]

/-- Compiled directives state conditions that count if some of them can exclude something. -/
theorem conditionsOf_eq_nil_iff {directives : List Source.Directive}
    {compiled : List AppliedDirective}
    (h : AppliedDirective.compileAll schema file directives = .ok compiled) :
    conditionsOf compiled = [] ↔ Source.Harmless directives := by
  rw [AppliedDirective.compileAll] at h
  have hall := forall₂_of_mapM_eq_ok h
  clear h
  induction hall with
  | nil => exact ⟨fun _ _ hmem => absurd hmem List.not_mem_nil, fun _ => rfl⟩
  | cons hone _ ih =>
      rw [conditionsOf_cons, List.append_eq_nil_iff, Option.toList_eq_nil_iff, Source.Harmless,
        List.forall_mem_cons]
      exact and_congr (ofDirective?_eq_none_iff hone) ih

theorem FieldCompiles.conditions_eq_nil_iff {scope : Scope} {field : Source.Field}
    {head : FieldSelection} {type : NamedType} (h : FieldCompiles schema scope field head type) :
    head.conditions = [] ↔ Source.Harmless field.directives := by
  obtain ⟨definition, directives, -, -, hdirectives, rfl⟩ := h
  exact conditionsOf_eq_nil_iff hdirectives

end Directives

/-! ## Ways -/

namespace Source

/-- Some way leads from selections as written to a field of a response key for an object type.
Everything on it applies to the type, and no directive on it can exclude anything. -/
inductive FreeWay (schema : Schema) (texts : List SourceText) (type : ObjectId) :
    List Selection → String → Prop
  | field {selections nested : List Selection} {field : Field} :
      .field field nested ∈ selections → Harmless field.directives →
      FreeWay schema texts type selections (field.givenKey.getD field.name)
  | spread {selections : List Selection} {spread : Spread} {source : FragmentSource}
      {key : String} :
      .spread spread ∈ selections → Harmless spread.directives →
      fragmentSource? texts spread.name = some source →
      schema.Applies type source.fragment.typeCondition →
      FreeWay schema texts type source.fragment.selections key →
      FreeWay schema texts type selections key
  | inline {selections nested : List Selection} {fragment : InlineFragment} {key : String} :
      .inline fragment nested ∈ selections → Harmless fragment.directives →
      (∀ condition, fragment.typeCondition = some condition → schema.Applies type condition) →
      FreeWay schema texts type nested key → FreeWay schema texts type selections key

/-- A free way on which no spread has a name that was spread before it: in the same selections,
or in those around it up to the next field or fragment. -/
inductive FirstWay (schema : Schema) (texts : List SourceText) (type : ObjectId) :
    NameSet → List Selection → String → Prop
  | field {seen : NameSet} {nested rest : List Selection} {field : Field} :
      Harmless field.directives →
      FirstWay schema texts type seen (.field field nested :: rest)
        (field.givenKey.getD field.name)
  | spread {seen : NameSet} {rest : List Selection} {spread : Spread} {source : FragmentSource}
      {key : String} :
      seen.contains spread.name = false → Harmless spread.directives →
      fragmentSource? texts spread.name = some source →
      schema.Applies type source.fragment.typeCondition →
      FirstWay schema texts type .empty source.fragment.selections key →
      FirstWay schema texts type seen (.spread spread :: rest) key
  | inline {seen : NameSet} {nested rest : List Selection} {fragment : InlineFragment}
      {key : String} :
      Harmless fragment.directives →
      (∀ condition, fragment.typeCondition = some condition → schema.Applies type condition) →
      FirstWay schema texts type seen nested key →
      FirstWay schema texts type seen (.inline fragment nested :: rest) key
  | later {seen : NameSet} {selection : Selection} {rest : List Selection} {key : String} :
      FirstWay schema texts type (seenBehind seen selection) rest key →
      FirstWay schema texts type seen (selection :: rest) key

variable {schema : Schema} {texts : List SourceText} {type : ObjectId} {seen : NameSet}
  {selections rest nested : List Selection} {key : String}

/-! ## The first selection -/

theorem not_firstWay_nil : ¬ FirstWay schema texts type seen [] key := nofun

theorem firstWay_field {field : Field} :
    FirstWay schema texts type seen (.field field nested :: rest) key ↔
      (Harmless field.directives ∧ field.givenKey.getD field.name = key) ∨
        FirstWay schema texts type seen rest key := by
  constructor
  · intro h
    cases h with
    | field hharmless => exact Or.inl ⟨hharmless, rfl⟩
    | later hlater => exact Or.inr hlater
  · rintro (⟨hharmless, rfl⟩ | hlater)
    · exact .field hharmless
    · exact .later hlater

theorem firstWay_spread {spread : Spread} {source : FragmentSource}
    (hsource : fragmentSource? texts spread.name = some source) :
    FirstWay schema texts type seen (.spread spread :: rest) key ↔
      (seen.contains spread.name = false ∧ Harmless spread.directives ∧
        schema.Applies type source.fragment.typeCondition ∧
        FirstWay schema texts type .empty source.fragment.selections key) ∨
        FirstWay schema texts type (seen.insert spread.name) rest key := by
  constructor
  · intro h
    cases h with
    | spread hnew hharmless hsource' happlies hinner =>
        obtain rfl := Option.some.inj (hsource.symm.trans hsource')
        exact Or.inl ⟨hnew, hharmless, happlies, hinner⟩
    | later hlater => exact Or.inr hlater
  · rintro (⟨hnew, hharmless, happlies, hinner⟩ | hlater)
    · exact .spread hnew hharmless hsource happlies hinner
    · exact .later hlater

/-- A spread of a name that was spread before opens no first way. -/
theorem firstWay_repeated {spread : Spread} (hseen : seen.contains spread.name = true) :
    FirstWay schema texts type seen (.spread spread :: rest) key ↔
      FirstWay schema texts type (seen.insert spread.name) rest key := by
  constructor
  · intro h
    cases h with
    | spread hnew => exact absurd (hseen.symm.trans hnew) (by simp)
    | later hlater => exact hlater
  · intro hlater
    exact .later hlater

theorem firstWay_inline {fragment : InlineFragment} :
    FirstWay schema texts type seen (.inline fragment nested :: rest) key ↔
      (Harmless fragment.directives ∧
        (∀ condition, fragment.typeCondition = some condition → schema.Applies type condition) ∧
        FirstWay schema texts type seen nested key) ∨
        FirstWay schema texts type seen rest key := by
  constructor
  · intro h
    cases h with
    | inline hharmless happlies hinner => exact Or.inl ⟨hharmless, happlies, hinner⟩
    | later hlater => exact Or.inr hlater
  · rintro (⟨hharmless, happlies, hinner⟩ | hlater)
    · exact .inline hharmless happlies hinner
    · exact .later hlater

end Source

end QueryShape
