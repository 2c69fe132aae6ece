import QueryShape.InvariantError
import QueryShape.PossibleTypes
import QueryShape.Schema.Definition

/-!
# Schemas

## What this module delivers

- `Schema`: the types, directives and root types that documents are compiled
  against, with the possible types of every composite type.
- Lookups by name and by number: `type?`, `directive?`, `root?`, `objectId?`,
  `objectName?`, `possibleTypes?`.
- `Schema.field?`: the field that a selection on a type refers to, the meta-fields of
  introspection included.

Equality (`BEq`) ignores the order in which types and directives are defined. The
numbers of object types follow that order, though, so sets of possible types do not.
-/

set_option autoImplicit false

namespace QueryShape

/-- A schema. -/
structure Schema where
  types : Table NamedType
  directives : Table DirectiveDefinition
  query : String
  mutation : Option String
  subscription : Option String
  /-- The names of the object types in the order of definitions; the place of a name
  is the number of the type. -/
  objects : List String
  /-- The possible types of every composite type. -/
  possible : Table PossibleTypes
deriving Inhabited

namespace Schema

/-- Agreement of two schemas. The names of object types are a set here. -/
def agrees (left right : Schema) : Bool :=
  left.types == right.types && left.directives == right.directives &&
    left.query == right.query && left.mutation == right.mutation &&
    left.subscription == right.subscription &&
    NameSet.mk left.objects == NameSet.mk right.objects && left.possible == right.possible

instance : BEq Schema := ⟨agrees⟩

/-- The type with a name. -/
def type? (schema : Schema) (name : String) : Option NamedType :=
  schema.types.get? name

/-- The directive with a name. -/
def directive? (schema : Schema) (name : String) : Option DirectiveDefinition :=
  schema.directives.get? name

/-- The root type of a kind of operation. -/
def root? (schema : Schema) : OperationKind → Option String
  | .query => some schema.query
  | .mutation => schema.mutation
  | .subscription => schema.subscription

/-- The number of the object type with a name. -/
def objectId? (schema : Schema) (name : String) : Option ObjectId :=
  schema.objects.idxOf? name

/-- The name of the object type with a number. -/
def objectName? (schema : Schema) (id : ObjectId) : Option String :=
  schema.objects[id]?

/-- The object type with a number. -/
def object? (schema : Schema) (id : ObjectId) : Option FieldedType := do
  (← schema.type? (← schema.objectName? id)).object?

/-- The object types that the value of a composite type may have; `none` for names
that are not those of composite types. -/
def possibleTypes? (schema : Schema) (name : String) : Option PossibleTypes :=
  schema.possible.get? name

/-- The names of the members of a set, in the order of their numbers. -/
def possibleNames (schema : Schema) (set : PossibleTypes) : List String :=
  set.ids.filterMap schema.objectName?

/-! ## Fields -/

/-- A meta-field. -/
def metaField (name : String) (type : TypeRef) (parameters : Table Parameter) : FieldDefinition :=
  ⟨.builtIn, none, none, name, parameters, type⟩

/-- The meta-field that every composite type has. -/
def typenameField : FieldDefinition :=
  metaField "__typename" (.named "String" false) .empty

/-- The meta-fields of the query root type. -/
def introspectionFields : List FieldDefinition :=
  [metaField "__schema" (.named "__Schema" false) .empty,
    metaField "__type" (.named "__Type" true)
      (Table.ofEntries [("name", ⟨.builtIn, none, "name", .named "String" false, none⟩)])]

/-- The meta-field with a name that a type has, if any. -/
def metaField? (schema : Schema) (parent name : String) : Option FieldDefinition :=
  if name = "__typename" then some typenameField
  else if parent = schema.query then
    introspectionFields.find? (fun field => field.name == name)
  else none

/-- The definition of a field as selected on a type: `none` if the type has no such
field. Unions have no fields but the meta-field, and types that are not composite
have none at all. -/
def field? (schema : Schema) (parent : NamedType) (name : String) :
    Except InvariantError (Option FieldDefinition) :=
  if !parent.isComposite then .error (.notComposite parent.name)
  else
    match schema.metaField? parent.name name with
    | some field => .ok (some field)
    | none =>
        match parent with
        | .interface type => .ok (type.fields.get? name)
        | .object type => .ok (type.fields.get? name)
        | .union type => .error (.fieldOnUnion name type.name)
        | type => .error (.notComposite type.name)

end Schema

end QueryShape
