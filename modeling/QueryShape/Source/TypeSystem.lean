import QueryShape.Source.Document

/-!
# Type system documents as written

A schema is written as definitions of types and directives, an optional block that
names the root types, and extensions of types that are defined elsewhere.

## What this module delivers

- `TypeKind`: the kinds of type, with the names that listings and messages use.
- `Source.TypeBody`: what a definition or an extension of a type contains, by kind.
- `Source.TypeDefinition`, `Source.TypeExtension`, `Source.DirectiveDefinition`,
  `Source.RootBlock`, `Source.TypeSystemDefinition`.
-/

set_option autoImplicit false

namespace QueryShape

/-- The kinds of type. Each built-in scalar is a kind of its own. -/
inductive TypeKind where
  | boolean
  | float
  | id
  | int
  | string
  | enum
  | inputObject
  | interface
  | object
  | scalar
  | union
deriving DecidableEq, Repr, Inhabited

namespace TypeKind

/-- The name of a kind in listings. -/
def name : TypeKind → String
  | boolean => "Boolean"
  | float => "Float"
  | id => "ID"
  | int => "Int"
  | string => "String"
  | enum => "Enum"
  | inputObject => "InputObject"
  | interface => "Interface"
  | object => "Object"
  | scalar => "Scalar"
  | union => "Union"

/-- The name of a kind in messages, which shortens the one of truth values. -/
def label : TypeKind → String
  | boolean => "Bool"
  | kind => kind.name

end TypeKind

namespace Source

/-- A parameter of a field or directive, or a field of an input object. It is
located at its description if it has one, else at its name. -/
structure InputValue where
  position : Position
  description : Option String
  name : String
  type : TypeRef
  defaultValue : Option Value
  directives : List Directive
deriving Inhabited

/-- A field of an object or interface, located as an input value is. -/
structure FieldDefinition where
  position : Position
  description : Option String
  name : String
  parameters : List InputValue
  type : TypeRef
  directives : List Directive
deriving Inhabited

/-- A value of an enum, located as an input value is. -/
structure EnumValue where
  position : Position
  description : Option String
  name : String
  directives : List Directive
deriving Inhabited

/-- What a definition or an extension says about a type, by its kind. -/
inductive TypeBody where
  | scalar
  | object (interfaces : List String) (fields : List FieldDefinition)
  | interface (interfaces : List String) (fields : List FieldDefinition)
  | union (members : List String)
  | enum (values : List EnumValue)
  | inputObject (fields : List InputValue)
deriving Inhabited

/-- The kind of type that a body belongs to. -/
def TypeBody.kind : TypeBody → TypeKind
  | scalar => .scalar
  | object _ _ => .object
  | interface _ _ => .interface
  | union _ => .union
  | enum _ => .enum
  | inputObject _ => .inputObject

/-- A type definition, located at its keyword. -/
structure TypeDefinition where
  position : Position
  description : Option String
  name : String
  directives : List Directive
  body : TypeBody
deriving Inhabited

/-- An extension of a type, located at the keyword of the type. -/
structure TypeExtension where
  position : Position
  name : String
  directives : List Directive
  body : TypeBody
deriving Inhabited

/-- A directive definition, located at its keyword. -/
structure DirectiveDefinition where
  position : Position
  description : Option String
  name : String
  parameters : List InputValue
  repeatable : Bool
  /-- The places where the directive may be applied. -/
  places : List String
deriving Inhabited

/-- The block that names root types, located at its keyword. -/
structure RootBlock where
  position : Position
  directives : List Directive
  query : Option String
  mutation : Option String
  subscription : Option String
deriving Inhabited

/-- The type that a block names for a kind of operation. -/
def RootBlock.root? (block : RootBlock) : OperationKind → Option String
  | .query => block.query
  | .mutation => block.mutation
  | .subscription => block.subscription

/-- A definition of a type system document. -/
inductive TypeSystemDefinition where
  | roots (block : RootBlock)
  | type (definition : TypeDefinition)
  | extension (extension : TypeExtension)
  | directive (definition : DirectiveDefinition)
deriving Inhabited

end Source

end QueryShape
