import QueryShape.Executable.Basic
import QueryShape.Source.DocumentReader
import QueryShape.Source.Printer

/-!
# Compiling documents against a schema

Documents are compiled as one unit: a fragment may be spread from any of them. A
fragment is compiled when it is first needed and is then shared by number. While it is
being compiled its name lies on the path, and a spread of a name on the path is a cycle.

## What this module delivers

- `SourceText`: a parsed document with the file it comes from.
- `Compilation`: what the compilation of a document has produced so far.
- `compileSelection`, `compileOperation`, `compileFragment`: the parts.
- `fragmentId`: the number of a fragment, which is compiled if it is not yet in the
  table.
- `Schema.compile`: compiles documents, or reports the first thing that is wrong.
- `Schema.compileText`: the same for a text without a file name.

The path of names that are being compiled holds each defined name at most once, so the
number of definitions bounds its length.
-/

set_option autoImplicit false

namespace QueryShape

/-- A parsed document and the file that it comes from. -/
structure SourceText where
  file : Option FileName
  document : Source.Document
deriving Inhabited

/-- What has been produced so far. -/
structure Compilation where
  fragments : FragmentTable
  referenced : NameSet
deriving Inhabited

/-- Steps of a compilation. -/
abbrev CompileM := StateT Compilation (Except CompileError)

namespace CompileM

/-- Fails because a name is not defined. -/
def undefined {α : Type} (error : ReferenceError) : CompileM α :=
  throw (.reference error)

/-- Fails because the document has an impossible shape. -/
def malformed {α : Type} (error : StructureError) : CompileM α :=
  throw (.malformed error)

/-- A result that fails only if the schema is broken. -/
def ensure {α : Type} (result : Except InvariantError α) : CompileM α :=
  match result with
  | .ok value => pure value
  | .error error => throw (.invariant error)

/-- Records that the document refers to a type. -/
def refer (schema : Schema) (type : String) : CompileM Unit := do
  let compilation ← get
  let referenced ← ensure (compilation.referenced.addType schema type)
  set { compilation with referenced }

/-- The directives of a definition or a selection. -/
def directives (schema : Schema) (file : Option FileName) (directives : List Source.Directive) :
    CompileM (List AppliedDirective) :=
  match AppliedDirective.compileAll schema file directives with
  | .ok directives => pure directives
  | .error error => throw error

/-- The type with a name, which ought to be there. -/
def typeNamed (schema : Schema) (name : String) : CompileM NamedType :=
  match schema.type? name with
  | some type => pure type
  | none => throw (.invariant (.typeMissing name))

/-- The possible types of a type, which ought to be composite. -/
def possibleTypesOf (schema : Schema) (type : String) : CompileM PossibleTypes :=
  match schema.possibleTypes? type with
  | some possible => pure possible
  | none => throw (.invariant (.notComposite type))

end CompileM

open CompileM

/-! ## Selections -/

/-- Where selections stand: in a file, on a type, within a set of object types. -/
structure Scope where
  file : Option FileName
  parent : NamedType
  possible : PossibleTypes

/-- How a spread finds the number of its fragment. The location is that of the spread. -/
abbrev Resolver := String → Location → CompileM FragmentId

/-- The type that a type condition names, which has to be composite. -/
def checkTypeCondition (schema : Schema) (name : String) (location : Location) :
    CompileM NamedType :=
  match schema.type? name with
  | none => undefined (.undefinedType name location)
  | some type =>
      if type.isComposite then do
        refer schema name
        pure type
      else malformed (.notComposite name location)

/-- A field without its nested selections, and the type of the field. -/
def compileField (schema : Schema) (scope : Scope) (field : Source.Field) :
    CompileM (FieldSelection × NamedType) := do
  let location := Location.source scope.file field.position
  match ← ensure (schema.field? scope.parent field.name) with
  | none => undefined (.undefinedField scope.parent.name field.name location)
  | some definition => do
      let type ← typeNamed schema definition.type.typeName
      refer schema definition.type.typeName
      let arguments ← ensure (Argument.compileAll definition.parameters field.arguments)
      let directives ← directives schema scope.file field.directives
      pure (⟨field.givenKey, field.name, scope.parent.name, definition.type, arguments, directives,
        definition.description, definition.deprecation, location⟩, type)

/-- A fragment spread. -/
def compileSpread (schema : Schema) (resolve : Resolver) (scope : Scope)
    (spread : Source.Spread) : CompileM SpreadSelection := do
  let location := Location.source scope.file spread.position
  let id ← resolve spread.name location
  let fragment ← ensure ((← get).fragments.resolve id)
  let directives ← directives schema scope.file spread.directives
  pure ⟨id, spread.name, directives, fragment.selections.possible ∩ scope.possible, location⟩

/-- The scope inside an inline fragment. -/
def narrowScope (schema : Schema) (scope : Scope) (fragment : Source.InlineFragment) :
    CompileM Scope :=
  match fragment.typeCondition with
  | none => pure scope
  | some name => do
      let type ← checkTypeCondition schema name (.source scope.file fragment.position)
      let possible ← possibleTypesOf schema name
      pure { scope with parent := type, possible := possible ∩ scope.possible }

mutual

/-- A selection, given the fragments that have been spread before on the way to it. A
repeated spread is left out. -/
def compileSelection (schema : Schema) (resolve : Resolver) (scope : Scope) (seen : NameSet) :
    Source.Selection → CompileM (Option Selection)
  | .field field selections => do
      let (head, type) ← compileField schema scope field
      -- Selections below the field start anew: nothing has been spread on the way to them.
      match type.isComposite, selections.isEmpty with
      | true, true =>
          malformed (.missingSelections scope.parent.name field.name type.name head.location)
      | false, false => malformed (.selectionsOnLeaf field.name type.name head.location)
      | false, true => pure (some (.field head none))
      | true, false => do
          let possible ← possibleTypesOf schema type.name
          let nested ←
            compileSelections schema resolve ⟨scope.file, type, possible⟩ .empty selections
          pure (some (.field head (some ⟨type.name, possible, nested⟩)))
  | .spread spread =>
      if seen.contains spread.name then pure none
      else do pure (some (.spread (← compileSpread schema resolve scope spread)))
  | .inline fragment selections => do
      let inner ← narrowScope schema scope fragment
      let directives ← directives schema scope.file fragment.directives
      -- What was spread before the fragment counts inside it as well.
      let nested ← compileSelections schema resolve inner seen selections
      pure (some (.inline
        ⟨fragment.typeCondition, directives, .source scope.file fragment.position⟩
        ⟨inner.parent.name, inner.possible, nested⟩))

/-- Selections, one after the other. What a selection spreads itself is left out of the
selections behind it; what is spread inside its nested selections is not. -/
def compileSelections (schema : Schema) (resolve : Resolver) (scope : Scope) (seen : NameSet) :
    List Source.Selection → CompileM (List Selection)
  | [] => pure []
  | selection :: rest => do
      let compiled ← compileSelection schema resolve scope seen selection
      let seen := match selection with
        | .spread spread => seen.insert spread.name
        | _ => seen
      let compiledRest ← compileSelections schema resolve scope seen rest
      pure (compiled.toList ++ compiledRest)

end

/-! ## Fragments -/

/-- A fragment definition and the file that it comes from. -/
structure FragmentSource where
  file : Option FileName
  fragment : Source.Fragment
deriving Inhabited

/-- Where a fragment is defined. -/
def FragmentSource.location (source : FragmentSource) : Location :=
  .source source.file source.fragment.position

/-- A fragment. -/
def compileFragment (schema : Schema) (resolve : Resolver) (source : FragmentSource) :
    CompileM Fragment := do
  let fragment := source.fragment
  let type ← checkTypeCondition schema fragment.typeCondition source.location
  let possible ← possibleTypesOf schema fragment.typeCondition
  let directives ← directives schema source.file fragment.directives
  let selections ←
    compileSelections schema resolve ⟨source.file, type, possible⟩ .empty fragment.selections
  pure ⟨fragment.name, fragment.typeCondition, directives, ⟨type.name, possible, selections⟩,
    (Source.Definition.fragment fragment).source, source.file, source.location⟩

/-- The number of the fragment with a name. A fragment that is not in the table is
compiled and added to it, unless its name lies on the path of fragments that are being
compiled. The depth bounds the number of names that the path can still take.

Nothing else has to be kept while fragments are compiled. The names on the path are those in
progress. A definition is still pending if its name is neither on the path nor in the table: it is
taken up when its name goes on the path, and its fragment is in the table when the name comes off. -/
def fragmentIdWithin (schema : Schema) (definitions : Table FragmentSource) :
    Nat → List String → Resolver
  | depth, path, name, location => do
      match (← get).fragments.idOf? name with
      | some id => pure id
      | none =>
          if path.contains name then malformed (.fragmentCycle name location)
          else
            match definitions.get? name, depth with
            | some source, depth + 1 => do
                let fragment ← compileFragment schema
                  (fragmentIdWithin schema definitions depth (name :: path)) source
                -- By now the table may have grown by the fragments that this one spreads.
                let compilation ← get
                set { compilation with fragments := compilation.fragments.push fragment }
                pure compilation.fragments.size
            | _, _ => undefined (.undefinedFragment name location)

/-- The number of the fragment with a name, while no fragment is being compiled. -/
def fragmentId (schema : Schema) (definitions : Table FragmentSource) : Resolver :=
  fragmentIdWithin schema definitions definitions.size []

/-! ## Operations -/

/-- A variable of an operation. -/
def compileVariable (schema : Schema) (file : Option FileName)
    (definition : Source.VariableDefinition) : CompileM Variable := do
  let location := Location.source file definition.position
  match schema.type? definition.type.typeName with
  | none => undefined (.undefinedType definition.type.typeName location)
  | some _ => do
      refer schema definition.type.typeName
      let defaultValue ← ensure (definition.defaultValue.mapM Value.ofSource)
      pure ⟨definition.name, definition.type, defaultValue, location⟩

/-- An operation, which has to be named. -/
def compileOperation (schema : Schema) (resolve : Resolver) (file : Option FileName)
    (operation : Source.Operation) : CompileM Operation := do
  let location := Location.source file operation.position
  match operation.name, schema.root? operation.kind with
  | none, _ => malformed (.unnamedOperation location)
  | some _, none => undefined (.undefinedRoot operation.kind location)
  | some name, some root => do
      let declared ← operation.declared.mapM (compileVariable schema file)
      let directives ← directives schema file operation.directives
      let possible ← possibleTypesOf schema root
      let type ← typeNamed schema root
      let selections ←
        compileSelections schema resolve ⟨file, type, possible⟩ .empty operation.selections
      pure ⟨name, operation.kind, root,
        Table.ofEntries (declared.map (fun v => (v.name, v))), directives,
        ⟨type.name, possible, selections⟩, (Source.Definition.operation operation).source, file,
        location⟩

/-- Compiles a definition. Fragments wait until they are needed. -/
def compileDefinition (schema : Schema) (resolve : Resolver) (file : Option FileName) :
    Source.Definition → CompileM (Option Operation)
  | .anonymous position _ => malformed (.unnamedOperation (.source file position))
  | .operation operation => some <$> compileOperation schema resolve file operation
  | .fragment _ => pure none

/-- Adds a compiled operation, whose name must be new. -/
def addOperation (operations : List Operation) (operation : Operation) :
    CompileM (List Operation) :=
  match operations.find? (fun present => present.name == operation.name) with
  | some present =>
      malformed (.duplicateOperation operation.name present.location operation.location)
  | none => pure (operations ++ [operation])

/-! ## Documents -/

/-- Enters a fragment definition, whose name must be new. -/
def addFragmentSource (definitions : Table FragmentSource) (source : FragmentSource) :
    Except StructureError (Table FragmentSource) :=
  match definitions.get? source.fragment.name with
  | some present =>
      .error (.duplicateFragment source.fragment.name present.location source.location)
  | none => .ok (definitions.insert source.fragment.name source)

/-- The fragment definitions of documents, by name. -/
def fragmentSources (texts : List SourceText) : Except StructureError (Table FragmentSource) :=
  (texts.flatMap (fun text => text.document.fragments.map (FragmentSource.mk text.file))).foldlM
    addFragmentSource .empty

/-- The definitions of documents in order, each with its file. -/
def definitionsOf (texts : List SourceText) : List (Option FileName × Source.Definition) :=
  texts.flatMap (fun text => text.document.definitions.map (text.file, ·))

/-- Compiles the operations of documents, with the fragments that they need. -/
def compileOperations (schema : Schema) (resolve : Resolver) (texts : List SourceText) :
    CompileM (List Operation) :=
  (definitionsOf texts).foldlM
    (fun operations (file, definition) => do
      match ← compileDefinition schema resolve file definition with
      | none => pure operations
      | some operation => addOperation operations operation)
    []

/-- Compiles documents: first the operations with what they need, then the remaining
fragments in the order of their definitions. Those that are in the table by then are just found
there. -/
def compileTexts (schema : Schema) (texts : List SourceText) : CompileM (List Operation) := do
  match fragmentSources texts with
  | .error error => malformed error
  | .ok definitions => do
      let resolve := fragmentId schema definitions
      let operations ← compileOperations schema resolve texts
      definitions.values.forM fun source => do
        let _ ← resolve source.fragment.name source.location
      pure operations

namespace Schema

/-- Compiles documents as one unit. -/
def compile (schema : Schema) (texts : List SourceText) : Except CompileError CompiledDocument := do
  let (operations, compilation) ← (compileTexts schema texts).run ⟨.empty, .empty⟩
  .ok ⟨operations, compilation.fragments, compilation.referenced⟩

/-- Parses and compiles a text that has no file name. -/
def compileText (schema : Schema) (text : String) : Except CompileError CompiledDocument :=
  match Source.Document.parse? text with
  | none => .error .unparsable
  | some document => schema.compile [⟨none, document⟩]

end Schema

end QueryShape
