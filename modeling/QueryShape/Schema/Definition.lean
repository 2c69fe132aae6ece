import QueryShape.Location
import QueryShape.Source.TypeSystem
import QueryShape.Table
import QueryShape.Value

/-!
# Types, fields and directives of a schema

## What this module delivers

- `Parameter`, `FieldDefinition`, `InputField`, `EnumValue`: the parts of types, each
  read from its written form by `ofSource`. A default value with a literal that does not
  fit would be a fault.
- `Parameter.declared`, `FieldDefinition.declared`, `InputField.declared`: what is read,
  because there are no such literals.
- `NamedType`: the named types. The built-in scalars are cases of their own; objects
  and interfaces share `FieldedType`.
- `DirectiveDefinition`: the four directives that every schema has, and the ones that
  a schema defines.
- `deprecationOf`: why something is deprecated, read from its directives.

Equality (`BEq`) of all of these ignores the order of fields, parameters, enum values
and union members, and respects the order of the interfaces of a type.
-/

set_option autoImplicit false

namespace QueryShape

/-- The reason of the first `@deprecated` directive: its first string argument named
`reason`, or a standard text. -/
def deprecationOf (directives : List Source.Directive) : Option String :=
  (directives.find? (fun directive => directive.name == "deprecated")).map fun directive =>
    (directive.arguments.findSome? (fun (name, value) =>
      if name = "reason" then value.text? else none)).getD "No longer supported"

/-! ## Parts of types -/

/-- A parameter of a field or a directive. -/
structure Parameter where
  location : Location
  description : Option String
  name : String
  type : TypeRef
  defaultValue : Option Value
deriving BEq, Inhabited

/-- A parameter as written in a file. -/
def Parameter.ofSource (file : Option FileName) (value : Source.InputValue) :
    Except InvariantError Parameter := do
  let defaultValue ← value.defaultValue.mapM Value.ofSource
  .ok ⟨.source file value.position, value.description, value.name, value.type, defaultValue⟩

/-- The parameters as written in a file. -/
def Parameter.tableOfSource (file : Option FileName) (values : List Source.InputValue) :
    Except InvariantError (Table Parameter) := do
  let entries ← values.mapM fun value => do .ok (value.name, ← Parameter.ofSource file value)
  .ok (Table.ofEntries entries)

/-- A field of an object or an interface. -/
structure FieldDefinition where
  location : Location
  deprecation : Option String
  description : Option String
  name : String
  parameters : Table Parameter
  type : TypeRef
deriving BEq, Inhabited

/-- A field as written in a file. -/
def FieldDefinition.ofSource (file : Option FileName) (field : Source.FieldDefinition) :
    Except InvariantError FieldDefinition := do
  let parameters ← Parameter.tableOfSource file field.parameters
  .ok ⟨.source file field.position, deprecationOf field.directives, field.description, field.name,
    parameters, field.type⟩

/-- A field of an input object. -/
structure InputField where
  location : Location
  deprecation : Option String
  description : Option String
  name : String
  type : TypeRef
  defaultValue : Option Value
deriving BEq, Inhabited

/-- A field of an input object as written in a file. -/
def InputField.ofSource (file : Option FileName) (value : Source.InputValue) :
    Except InvariantError InputField := do
  let defaultValue ← value.defaultValue.mapM Value.ofSource
  .ok ⟨.source file value.position, deprecationOf value.directives, value.description, value.name,
    value.type, defaultValue⟩

/-- A value of an enum. -/
structure EnumValue where
  location : Location
  deprecation : Option String
  description : Option String
  name : String
deriving BEq, Inhabited

/-- A value of an enum as written, at a given location. -/
def EnumValue.ofSource (location : Location) (value : Source.EnumValue) : EnumValue :=
  ⟨location, deprecationOf value.directives, value.description, value.name⟩

/-! ### What is read -/

section Declared

variable (file : Option FileName)

/-- The parameter that is written in a file. -/
def Parameter.declared (value : Source.InputValue) : Parameter :=
  ⟨.source file value.position, value.description, value.name, value.type,
    value.defaultValue.map Source.Value.resolved⟩

theorem Parameter.ofSource_eq (value : Source.InputValue) :
    ofSource file value = .ok (declared file value) := by
  rw [ofSource, Value.mapM_ofSource]
  rfl

/-- The parameters that are written in a file. -/
def Parameter.declaredTable (values : List Source.InputValue) : Table Parameter :=
  Table.ofEntries (values.map fun value => (value.name, declared file value))

theorem Parameter.tableOfSource_eq (values : List Source.InputValue) :
    tableOfSource file values = .ok (declaredTable file values) := by
  have hentry : (fun value : Source.InputValue => do .ok (value.name, ← ofSource file value)) =
      fun value => (pure (value.name, declared file value) : Except InvariantError _) := by
    funext value
    rw [ofSource_eq]
    rfl
  rw [tableOfSource, hentry, List.mapM_pure]
  rfl

/-- The field that is written in a file. -/
def FieldDefinition.declared (field : Source.FieldDefinition) : FieldDefinition :=
  ⟨.source file field.position, deprecationOf field.directives, field.description, field.name,
    Parameter.declaredTable file field.parameters, field.type⟩

theorem FieldDefinition.ofSource_eq (field : Source.FieldDefinition) :
    ofSource file field = .ok (declared file field) := by
  rw [ofSource, Parameter.tableOfSource_eq]
  rfl

/-- The field of an input object that is written in a file. -/
def InputField.declared (value : Source.InputValue) : InputField :=
  ⟨.source file value.position, deprecationOf value.directives, value.description, value.name,
    value.type, value.defaultValue.map Source.Value.resolved⟩

theorem InputField.ofSource_eq (value : Source.InputValue) :
    ofSource file value = .ok (declared file value) := by
  rw [ofSource, Value.mapM_ofSource]
  rfl

end Declared

/-! ## Named types -/

/-- An enum. -/
structure EnumType where
  location : Location
  description : Option String
  name : String
  values : Table EnumValue
deriving BEq, Inhabited

/-- An input object. -/
structure InputObjectType where
  location : Location
  description : Option String
  name : String
  fields : Table InputField
deriving BEq, Inhabited

/-- An object or an interface. -/
structure FieldedType where
  location : Location
  description : Option String
  name : String
  interfaces : List String
  fields : Table FieldDefinition
deriving BEq, Inhabited

/-- A scalar that a schema defines. -/
structure ScalarType where
  location : Location
  description : Option String
  name : String
deriving BEq, Inhabited

/-- A union of object types. -/
structure UnionType where
  location : Location
  description : Option String
  name : String
  members : NameSet
deriving BEq, Inhabited

/-- A named type. -/
inductive NamedType where
  | boolean
  | float
  | id
  | int
  | string
  | enum (type : EnumType)
  | inputObject (type : InputObjectType)
  | interface (type : FieldedType)
  | object (type : FieldedType)
  | scalar (type : ScalarType)
  | union (type : UnionType)
deriving BEq, Inhabited

namespace NamedType

/-- The kind of a type. -/
def kind : NamedType → TypeKind
  | boolean => .boolean
  | float => .float
  | id => .id
  | int => .int
  | string => .string
  | enum _ => .enum
  | inputObject _ => .inputObject
  | interface _ => .interface
  | object _ => .object
  | scalar _ => .scalar
  | union _ => .union

/-- The name of a type. -/
def name : NamedType → String
  | enum type => type.name
  | inputObject type => type.name
  | interface type => type.name
  | object type => type.name
  | scalar type => type.name
  | union type => type.name
  | type => type.kind.name

/-- Where a type is defined. -/
def location : NamedType → Location
  | enum type => type.location
  | inputObject type => type.location
  | interface type => type.location
  | object type => type.location
  | scalar type => type.location
  | union type => type.location
  | _ => .builtIn

/-- The description of a type. -/
def description : NamedType → Option String
  | enum type => type.description
  | inputObject type => type.description
  | interface type => type.description
  | object type => type.description
  | scalar type => type.description
  | union type => type.description
  | _ => none

/-- Objects, interfaces and unions are composite: what has such a type is selected
with nested selections. -/
def isComposite : NamedType → Bool
  | interface _ => true
  | object _ => true
  | union _ => true
  | _ => false

/-- The object, if the type is one. -/
def object? : NamedType → Option FieldedType
  | object type => some type
  | _ => none

/-- The interface, if the type is one. -/
def interface? : NamedType → Option FieldedType
  | interface type => some type
  | _ => none

/-- The union, if the type is one. -/
def union? : NamedType → Option UnionType
  | union type => some type
  | _ => none

/-- The object or interface, if the type is one. -/
def fielded? : NamedType → Option FieldedType
  | object type => some type
  | interface type => some type
  | _ => none

end NamedType

/-! ## Directives -/

/-- A directive that a schema defines. -/
structure CustomDirective where
  location : Location
  description : Option String
  name : String
  parameters : Table Parameter
  repeatable : Bool
deriving BEq, Inhabited

/-- A directive: one of the four that every schema has, or one that it defines. -/
inductive DirectiveDefinition where
  | deprecated
  | includeIf
  | skipIf
  | specifiedBy
  | custom (directive : CustomDirective)
deriving BEq, Inhabited

namespace DirectiveDefinition

/-- The directives that every schema has. -/
def builtIns : List DirectiveDefinition :=
  [deprecated, includeIf, skipIf, specifiedBy]

/-- The name of a directive. -/
def name : DirectiveDefinition → String
  | deprecated => "deprecated"
  | includeIf => "include"
  | skipIf => "skip"
  | specifiedBy => "specifiedBy"
  | custom directive => directive.name

/-- Where a directive is defined. -/
def location : DirectiveDefinition → Location
  | custom directive => directive.location
  | _ => .builtIn

/-- The one parameter of a built-in directive. -/
def builtInParameter (name : String) (type : TypeRef) : Table Parameter :=
  Table.ofEntries [(name, ⟨.builtIn, none, name, type, none⟩)]

/-- The parameters that a directive declares. -/
def parameters : DirectiveDefinition → Table Parameter
  | deprecated => builtInParameter "reason" (.named "String" true)
  | includeIf => builtInParameter "if" (.named "Boolean" false)
  | skipIf => builtInParameter "if" (.named "Boolean" false)
  | specifiedBy => builtInParameter "url" (.named "String" false)
  | custom directive => directive.parameters

end DirectiveDefinition

end QueryShape
