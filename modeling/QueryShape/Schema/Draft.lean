import QueryShape.Schema.Basic
import QueryShape.Schema.Error
import QueryShape.Schema.Introspection
import QueryShape.Source.TypeSystemReader

/-!
# From definitions to a schema

A draft collects definitions from any number of texts. Definitions of types and
directives are entered at once; extensions wait until everything is loaded, so that
an extension may come before the type that it extends. Finishing a draft adds the
introspection types, applies the extensions, settles the root types and checks that
every name that is used is defined.

## What this module delivers

- `SchemaDraft.add`, `SchemaDraft.load`, `SchemaDraft.loadFiles`: enter definitions.
- `NamedType.extend?`: applies an extension to a type.
- `SchemaDraft.root?`: the root type of a kind of operation.
- `SchemaDraft.faults`: all uses of names that are wrong, in the order of checking.
- `SchemaDraft.build`: the schema of a draft, or the first thing that is wrong.
-/

set_option autoImplicit false

namespace QueryShape

open Source (TypeSystemDefinition TypeExtension TypeBody)

/-! ## Origins -/

/-- Where definitions come from: a text with an optional file name, or the library
itself. -/
structure Origin where
  file : Option FileName
  builtIn : Bool

/-- The location of a type, a directive, a root block or an enum value. -/
def Origin.locate (origin : Origin) (position : Position) : Location :=
  if origin.builtIn then .builtIn else .source origin.file position

/-! ## Types from definitions -/

/-- Adds a field to the fields of a type, which must not have it. -/
def addField (file : Option FileName) (type : String) (fields : Table FieldDefinition)
    (field : Source.FieldDefinition) : Except SchemaError (Table FieldDefinition) :=
  match fields.get? field.name with
  | some present =>
      .error (.duplicateField type field.name present.location (.source file field.position))
  | none => do
      let definition ← (FieldDefinition.ofSource file field).mapError .invalidValue
      .ok (fields.insert field.name definition)

/-- Adds a field to the fields of an input object, which must not have it. -/
def addInputField (file : Option FileName) (type : String) (fields : Table InputField)
    (field : Source.InputValue) : Except SchemaError (Table InputField) :=
  match fields.get? field.name with
  | some present =>
      .error (.duplicateField type field.name present.location (.source file field.position))
  | none => do
      let definition ← (InputField.ofSource file field).mapError .invalidValue
      .ok (fields.insert field.name definition)

/-! Default values are values, so fields that are new can be added. -/

theorem addField_eq (file : Option FileName) (type : String) (fields : Table FieldDefinition)
    (field : Source.FieldDefinition) :
    addField file type fields field =
      match fields.get? field.name with
      | some present =>
          .error (.duplicateField type field.name present.location (.source file field.position))
      | none => .ok (fields.insert field.name (.declared file field)) := by
  rw [addField, FieldDefinition.ofSource_eq]
  rfl

theorem addInputField_eq (file : Option FileName) (type : String) (fields : Table InputField)
    (field : Source.InputValue) :
    addInputField file type fields field =
      match fields.get? field.name with
      | some present =>
          .error (.duplicateField type field.name present.location (.source file field.position))
      | none => .ok (fields.insert field.name (.declared file field)) := by
  rw [addInputField, InputField.ofSource_eq]
  rfl

/-- Writes enum values. A value that is there already is replaced in its place. -/
def addEnumValues (locate : Position → Location) (table : Table EnumValue)
    (values : List Source.EnumValue) : Table EnumValue :=
  values.foldl
    (fun table value => table.insert value.name (EnumValue.ofSource (locate value.position) value))
    table

/-- Adds interfaces that a type does not list yet, and fields that it must not have. -/
def FieldedType.extend (file : Option FileName) (type : FieldedType) (interfaces : List String)
    (fields : List Source.FieldDefinition) : Except SchemaError FieldedType := do
  let interfaces := interfaces.foldl
    (fun known name => if known.contains name then known else known ++ [name]) type.interfaces
  let fields ← fields.foldlM (addField file type.name) type.fields
  .ok { type with interfaces, fields }

/-- The type that a definition describes. -/
def NamedType.ofSource (origin : Origin) (definition : Source.TypeDefinition) :
    Except SchemaError NamedType :=
  let location := origin.locate definition.position
  let description := definition.description
  let name := definition.name
  match definition.body with
  | .scalar => .ok (.scalar ⟨location, description, name⟩)
  | .object interfaces fields =>
      NamedType.object <$>
        FieldedType.extend origin.file ⟨location, description, name, [], .empty⟩ interfaces fields
  | .interface interfaces fields =>
      NamedType.interface <$>
        FieldedType.extend origin.file ⟨location, description, name, [], .empty⟩ interfaces fields
  | .union members => .ok (.union ⟨location, description, name, NameSet.ofList members⟩)
  | .enum values =>
      .ok (.enum ⟨location, description, name, addEnumValues origin.locate .empty values⟩)
  | .inputObject fields => do
      let fields ← fields.foldlM (addInputField origin.file name) .empty
      .ok (.inputObject ⟨location, description, name, fields⟩)

/-- Applies an extension to a type of the same kind. What an extension of an interface
says about further interfaces has no effect on possible types and is not kept. -/
def NamedType.extend? (file : Option FileName) (type : NamedType) (extension : TypeExtension) :
    Except SchemaError NamedType :=
  match type, extension.body with
  | .enum type, .enum values =>
      .ok (.enum { type with values := addEnumValues (.source file) type.values values })
  | .inputObject type, .inputObject fields => do
      let fields ← fields.foldlM (addInputField file type.name) type.fields
      .ok (.inputObject { type with fields })
  | .interface type, .interface _ fields => NamedType.interface <$> type.extend file [] fields
  | .object type, .object interfaces fields =>
      NamedType.object <$> type.extend file interfaces fields
  | .scalar type, .scalar => .ok (.scalar type)
  | .union type, .union members =>
      .ok (.union { type with members := type.members.insertAll members })
  | type, body =>
      .error (.extensionOfWrongKind type.name type.kind body.kind
        (.source file extension.position))

/-! ## Drafts -/

/-- A root type that a block names, and where the block stands. -/
structure RootEntry where
  location : Location
  type : String

/-- The definitions loaded so far. -/
structure SchemaDraft where
  types : Table NamedType
  directives : Table DirectiveDefinition
  query : Option RootEntry
  mutation : Option RootEntry
  subscription : Option RootEntry
  /-- Extensions in the order of loading, each with the file it comes from. -/
  extensions : List (Option FileName × TypeExtension)

namespace SchemaDraft

/-- The types that every schema has from the start. -/
def scalars : List NamedType :=
  [.boolean, .float, .id, .int, .string]

/-- The draft without any definition. -/
def empty : SchemaDraft :=
  ⟨Table.ofEntries (scalars.map (fun type => (type.name, type))), .empty, none, none, none, []⟩

instance : Inhabited SchemaDraft := ⟨empty⟩

/-- Whether a name is reserved for introspection. -/
def isReserved (name : String) : Bool :=
  name.startsWith "__"

/-- Enters a type. Only the library itself may use reserved names. -/
def addType (draft : SchemaDraft) (origin : Origin) (type : NamedType) :
    Except SchemaError SchemaDraft :=
  if !origin.builtIn && isReserved type.name then
    .error (.reservedTypeName type.name type.location)
  else
    match draft.types.get? type.name with
    | some present => .error (.duplicateType type.name present.location type.location)
    | none => .ok { draft with types := draft.types.insert type.name type }

/-- Enters a directive. -/
def addDirective (draft : SchemaDraft) (origin : Origin)
    (definition : Source.DirectiveDefinition) : Except SchemaError SchemaDraft :=
  let location := origin.locate definition.position
  let name := definition.name
  if (DirectiveDefinition.builtIns.map DirectiveDefinition.name).contains name then
    .error (.redefinedBuiltIn name location)
  else if isReserved name then .error (.reservedDirectiveName name location)
  else
    match draft.directives.get? name with
    | some present => .error (.duplicateDirective name present.location location)
    | none => do
        let parameters ←
          (Parameter.tableOfSource origin.file definition.parameters).mapError .invalidValue
        let directive : CustomDirective :=
          ⟨location, definition.description, name, parameters, definition.repeatable⟩
        .ok { draft with directives := draft.directives.insert name (.custom directive) }

/-- A directive may be entered whatever the default values of its parameters are. -/
theorem addDirective_eq (draft : SchemaDraft) (origin : Origin)
    (definition : Source.DirectiveDefinition) :
    draft.addDirective origin definition =
      if (DirectiveDefinition.builtIns.map DirectiveDefinition.name).contains definition.name then
        .error (.redefinedBuiltIn definition.name (origin.locate definition.position))
      else if isReserved definition.name then
        .error (.reservedDirectiveName definition.name (origin.locate definition.position))
      else
        match draft.directives.get? definition.name with
        | some present =>
            .error (.duplicateDirective definition.name present.location
              (origin.locate definition.position))
        | none => .ok { draft with
            directives := draft.directives.insert definition.name (.custom
              ⟨origin.locate definition.position, definition.description, definition.name,
                Parameter.declaredTable origin.file definition.parameters,
                definition.repeatable⟩) } := by
  rw [addDirective, Parameter.tableOfSource_eq]
  rfl

/-- The root type named for a kind of operation. -/
def rootEntry? (draft : SchemaDraft) : OperationKind → Option RootEntry
  | .query => draft.query
  | .mutation => draft.mutation
  | .subscription => draft.subscription

/-- Names the root type for a kind of operation. -/
def setRoot (draft : SchemaDraft) (entry : RootEntry) : OperationKind → SchemaDraft
  | .query => { draft with query := some entry }
  | .mutation => { draft with mutation := some entry }
  | .subscription => { draft with subscription := some entry }

/-- Enters what a root block says about one kind of operation. -/
def addRoot (location : Location) (block : Source.RootBlock) (draft : SchemaDraft)
    (kind : OperationKind) : Except SchemaError SchemaDraft :=
  match block.root? kind, draft.rootEntry? kind with
  | none, _ => .ok draft
  | some _, some present => .error (.duplicateRoot kind present.location location)
  | some type, none => .ok (draft.setRoot ⟨location, type⟩ kind)

/-- Enters a definition. -/
def add (origin : Origin) (draft : SchemaDraft) :
    TypeSystemDefinition → Except SchemaError SchemaDraft
  | .type definition => do draft.addType origin (← NamedType.ofSource origin definition)
  | .directive definition => draft.addDirective origin definition
  | .roots block =>
      [OperationKind.query, .mutation, .subscription].foldlM
        (addRoot (origin.locate block.position) block) draft
  | .extension extension =>
      .ok { draft with extensions := draft.extensions ++ [(origin.file, extension)] }

/-- Enters the definitions of a parsed text. -/
def addAll (draft : SchemaDraft) (origin : Origin) (definitions : List TypeSystemDefinition) :
    Except SchemaError SchemaDraft :=
  definitions.foldlM (add origin) draft

/-- Parses a text and enters its definitions. -/
def load (draft : SchemaDraft) (file : Option FileName) (text : String) :
    Except SchemaError SchemaDraft :=
  match TypeSystemDefinition.parse? text with
  | none => .error (.unparsable file)
  | some definitions => draft.addAll ⟨file, false⟩ definitions

/-- Reads a file and enters its definitions. -/
def loadFile (tree : FileTree) (draft : SchemaDraft) (path : String) :
    Except SchemaError SchemaDraft :=
  match tree.readText path with
  | .error fault => .error (.unreadable fault)
  | .ok text => draft.load (some ⟨path⟩) text

/-- Reads files, one after the other, and enters their definitions. -/
def loadFiles (tree : FileTree) (draft : SchemaDraft) (paths : List String) :
    Except SchemaError SchemaDraft :=
  paths.foldlM (loadFile tree) draft

/-! ## Finishing a draft -/

/-- Applies an extension to the type that it names. -/
def applyExtension (types : Table NamedType) (entry : Option FileName × TypeExtension) :
    Except SchemaError (Table NamedType) :=
  let (file, extension) := entry
  match types.get? extension.name with
  | none => .error (.extensionOfUndefined extension.name (.source file extension.position))
  | some type => (types.insert extension.name ·) <$> type.extend? file extension

/-- The root type of a kind of operation: the object type that a root block names, or
the object type with the customary name. -/
def resolveRoot (types : Table NamedType) (kind : OperationKind) (entry : Option RootEntry) :
    Except SchemaError (Option String) :=
  match entry with
  | none =>
      match types.get? kind.title with
      | some (.object _) => .ok (some kind.title)
      | _ => .ok none
  | some entry =>
      match types.get? entry.type with
      | some (.object _) => .ok (some entry.type)
      | some type => .error (.rootNotObject kind entry.type type.kind entry.location)
      | none => .error (.undefinedRoot kind entry.type entry.location)

/-- The fault of a reference to a type that is not defined. -/
def referenceFaults (types : Table NamedType) (type : TypeRef) (location : Location) :
    List SchemaError :=
  if types.contains type.typeName then [] else [.undefinedType type.typeName location]

/-- The faults of parameters. -/
def parameterFaults (types : Table NamedType) (parameters : Table Parameter) :
    List SchemaError :=
  parameters.values.flatMap (fun p => referenceFaults types p.type p.location)

/-- The faults of an object or interface: those of its fields, then those of the
interfaces it lists. -/
def fieldedFaults (types : Table NamedType) (type : FieldedType) : List SchemaError :=
  type.fields.values.flatMap (fun field =>
    referenceFaults types field.type field.location ++ parameterFaults types field.parameters) ++
  type.interfaces.flatMap (fun name =>
    match types.get? name with
    | some (.interface _) => []
    | some _ => [.implementsNonInterface type.name name type.location]
    | none => [.undefinedType name type.location])

/-- The faults of a union: members that are not object types. -/
def unionFaults (types : Table NamedType) (type : UnionType) : List SchemaError :=
  type.members.names.flatMap (fun name =>
    match types.get? name with
    | some (.object _) => []
    | some _ => [.unionMemberNotObject type.name name type.location]
    | none => [.undefinedType name type.location])

/-- The faults of a type. -/
def typeFaults (types : Table NamedType) : NamedType → List SchemaError
  | .object type => fieldedFaults types type
  | .interface type => fieldedFaults types type
  | .inputObject type =>
      type.fields.values.flatMap (fun field => referenceFaults types field.type field.location)
  | .union type => unionFaults types type
  | _ => []

/-- All uses of names that are wrong: first those in directives, then those in types. -/
def faults (types : Table NamedType) (directives : Table DirectiveDefinition) :
    List SchemaError :=
  directives.values.flatMap (fun directive =>
    match directive with
    | .custom directive => parameterFaults types directive.parameters
    | _ => []) ++
  types.values.flatMap (typeFaults types)

/-- The names of the object types, in the order of definitions. -/
def objectNames (types : Table NamedType) : List String :=
  types.values.filterMap (fun type => type.object?.map FieldedType.name)

/-- The numbers of the object types that satisfy a test. -/
def idsWhere (types : Table NamedType) (test : FieldedType → Bool) : List ObjectId :=
  ((types.values.filterMap NamedType.object?).zipIdx.filter (fun entry => test entry.1)).map
    Prod.snd

/-- The possible types of a composite type: an object has itself, an interface the
objects that list it, a union its members. -/
def possibleTypesOf (types : Table NamedType) (type : NamedType) : Option PossibleTypes :=
  let collect (test : FieldedType → Bool) : PossibleTypes :=
    .ofIds (objectNames types).length (idsWhere types test)
  match type with
  | .object type => some (collect (fun object => object.name == type.name))
  | .interface type => some (collect (fun object => object.interfaces.contains type.name))
  | .union type => some (collect (fun object => type.members.contains object.name))
  | _ => none

/-- The possible types of all composite types. -/
def possibleTypes (types : Table NamedType) : Table PossibleTypes :=
  Table.ofEntries (types.values.filterMap (fun type =>
    (possibleTypesOf types type).map (fun set => (type.name, set))))

/-- The directives of a draft, followed by the built-in ones. -/
def withBuiltIns (directives : Table DirectiveDefinition) : Table DirectiveDefinition :=
  DirectiveDefinition.builtIns.foldl
    (fun table directive =>
      if table.contains directive.name then table else table.insert directive.name directive)
    directives

/-- The schema of a draft. -/
def build (draft : SchemaDraft) : Except SchemaError Schema := do
  -- The library's own types come last, so that their object types have the last numbers.
  let draft ← draft.addAll ⟨none, true⟩ Introspection.definitions
  let types ← draft.extensions.foldlM applyExtension draft.types
  let directives := withBuiltIns draft.directives
  match ← resolveRoot types .query draft.query with
  | none => .error .noQueryRoot
  | some query =>
      let mutation ← resolveRoot types .mutation draft.mutation
      let subscription ← resolveRoot types .subscription draft.subscription
      match (faults types directives).head? with
      | some fault => .error fault
      | none =>
          .ok ⟨types, directives, query, mutation, subscription, objectNames types,
            possibleTypes types⟩

end SchemaDraft

/-- The schema that a text without a file name defines. -/
def Schema.ofText (text : String) : Except SchemaError Schema := do
  (← SchemaDraft.empty.load none text).build

end QueryShape
