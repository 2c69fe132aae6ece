import QueryShape.Source.TypeSystem

/-!
# The introspection types

Every schema contains the types that describe schemas. They are given here as
definitions, laid out as in a text of their own: one block below the other with an
empty line in between, one field or value in a line, indented by two columns. Fields
are located in that text; the types and enum values themselves count as built in.

## What this module delivers

- `Introspection.definitions`: the definitions of the introspection types, in order.
-/

set_option autoImplicit false

namespace QueryShape.Introspection

/-- A field of an introspection type. Some take a parameter that includes what is
deprecated. -/
structure MetaField where
  name : String
  type : TypeRef
  includesDeprecated : Bool

/-- An introspection type. -/
inductive Block where
  | object (name : String) (fields : List MetaField)
  | enum (name : String) (values : List String)

/-- The number of lines of a block, without the empty line behind it. -/
def Block.height : Block → Nat
  | object _ fields => fields.length + 2
  | enum _ values => values.length + 2

/-! ## Layout -/

/-- The parameter that includes what is deprecated, behind the name of its field. -/
def deprecationParameter (line : Nat) (field : String) : Source.InputValue :=
  ⟨⟨line, 4 + field.length⟩, none, "includeDeprecated", .named "Boolean" true,
    some (.bool false), []⟩

/-- A field in a line. -/
def MetaField.definition (line : Nat) (field : MetaField) : Source.FieldDefinition :=
  ⟨⟨line, 3⟩, none, field.name,
    if field.includesDeprecated then [deprecationParameter line field.name] else [],
    field.type, []⟩

/-- A block that begins in a line. -/
def Block.definition (line : Nat) : Block → Source.TypeDefinition
  | object name fields =>
      ⟨⟨line, 1⟩, none, name, [],
        .object [] (fields.zipIdx.map (fun (field, i) => field.definition (line + 1 + i)))⟩
  | enum name values =>
      ⟨⟨line, 1⟩, none, name, [],
        .enum (values.zipIdx.map (fun (value, i) => ⟨⟨line + 1 + i, 3⟩, none, value, []⟩))⟩

/-- Blocks one below the other, from a line on. -/
def layOut (line : Nat) : List Block → List Source.TypeDefinition
  | [] => []
  | block :: rest => block.definition line :: layOut (line + block.height + 1) rest

/-! ## Content -/

/-- A nullable type. -/
def maybe (name : String) : TypeRef := .named name true

/-- A type that is not null. -/
def always (name : String) : TypeRef := .named name false

/-- A list of items that are not null. -/
def many (name : String) (nullable : Bool) : TypeRef := .list (always name) nullable

/-- The introspection types. -/
def blocks : List Block :=
  [.object "__Schema"
      [⟨"description", maybe "String", false⟩, ⟨"types", many "__Type" false, false⟩,
        ⟨"queryType", always "__Type", false⟩, ⟨"mutationType", maybe "__Type", false⟩,
        ⟨"subscriptionType", maybe "__Type", false⟩,
        ⟨"directives", many "__Directive" false, false⟩],
    .object "__Type"
      [⟨"kind", always "__TypeKind", false⟩, ⟨"name", maybe "String", false⟩,
        ⟨"description", maybe "String", false⟩, ⟨"fields", many "__Field" true, true⟩,
        ⟨"interfaces", many "__Type" true, false⟩, ⟨"possibleTypes", many "__Type" true, false⟩,
        ⟨"enumValues", many "__EnumValue" true, true⟩,
        ⟨"inputFields", many "__InputValue" true, true⟩, ⟨"ofType", maybe "__Type", false⟩,
        ⟨"specifiedByURL", maybe "String", false⟩],
    .enum "__TypeKind"
      ["SCALAR", "OBJECT", "INTERFACE", "UNION", "ENUM", "INPUT_OBJECT", "LIST", "NON_NULL"],
    .object "__Field"
      [⟨"name", always "String", false⟩, ⟨"description", maybe "String", false⟩,
        ⟨"args", many "__InputValue" false, true⟩, ⟨"type", always "__Type", false⟩,
        ⟨"isDeprecated", always "Boolean", false⟩, ⟨"deprecationReason", maybe "String", false⟩],
    .object "__InputValue"
      [⟨"name", always "String", false⟩, ⟨"description", maybe "String", false⟩,
        ⟨"type", always "__Type", false⟩, ⟨"defaultValue", maybe "String", false⟩,
        ⟨"isDeprecated", always "Boolean", false⟩, ⟨"deprecationReason", maybe "String", false⟩],
    .object "__EnumValue"
      [⟨"name", always "String", false⟩, ⟨"description", maybe "String", false⟩,
        ⟨"isDeprecated", always "Boolean", false⟩, ⟨"deprecationReason", maybe "String", false⟩],
    .object "__Directive"
      [⟨"name", always "String", false⟩, ⟨"description", maybe "String", false⟩,
        ⟨"locations", many "__DirectiveLocation" false, false⟩,
        ⟨"args", many "__InputValue" false, true⟩, ⟨"isRepeatable", always "Boolean", false⟩],
    .enum "__DirectiveLocation"
      ["QUERY", "MUTATION", "SUBSCRIPTION", "FIELD", "FRAGMENT_DEFINITION", "FRAGMENT_SPREAD",
        "INLINE_FRAGMENT", "VARIABLE_DEFINITION", "SCHEMA", "SCALAR", "OBJECT",
        "FIELD_DEFINITION", "ARGUMENT_DEFINITION", "INTERFACE", "UNION", "ENUM", "ENUM_VALUE",
        "INPUT_OBJECT", "INPUT_FIELD_DEFINITION"]]

/-- The definitions of the introspection types. -/
def definitions : List Source.TypeSystemDefinition :=
  (layOut 1 blocks).map .type

end QueryShape.Introspection
