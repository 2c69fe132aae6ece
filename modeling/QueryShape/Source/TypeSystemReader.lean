import QueryShape.Source.Reader
import QueryShape.Source.TypeSystem

/-!
# Reading type system documents

## What this module delivers

- `Reader.typeSystemDefinition`: a definition of a type system document.
- `TypeSystemDefinition.parse?`: the definitions that a text denotes; `none` if it
  denotes none.

The places of a directive definition have to be among the places that the query
language knows.
-/

set_option autoImplicit false

namespace QueryShape.Source

namespace Reader

/-! ## Shared parts -/

/-- A description, if a string is next, with its place. -/
def description? : Reader (Option (String × Position))
  | ⟨.string text, position⟩ :: rest => some (some (text, position), rest)
  | tokens => some (none, tokens)

/-- A name behind an optional description: the place of the first of them, the
description and the name. -/
def described : Reader (Position × Option String × String) := do
  let description ← description?
  let (name, position) ← located
  match description with
  | some (text, position) => return (position, some text, name)
  | none => return (position, none, name)

/-- A parameter or a field of an input object. -/
def inputValue (levels : Nat) : Reader InputValue := do
  let (position, description, name) ← described
  let _ ← symbol ':'
  let type ← typeRef levels
  let value ← defaultValue? levels
  let directives ← directives levels
  return ⟨position, description, name, type, value, directives⟩

/-- Parameters in parentheses, or nothing. -/
def parameters (levels : Nat) : Reader (List InputValue) :=
  bracketed levels '(' ')' inputValue

/-- A field of an object or interface. -/
def fieldDefinition (levels : Nat) : Reader FieldDefinition := do
  let (position, description, name) ← described
  let parameters ← parameters levels
  let _ ← symbol ':'
  let type ← typeRef levels
  let directives ← directives levels
  return ⟨position, description, name, parameters, type, directives⟩

/-- A value of an enum. -/
def enumValue (levels : Nat) : Reader EnumValue := do
  let (position, description, name) ← described
  let directives ← directives levels
  return ⟨position, description, name, directives⟩

/-- Names separated by a symbol, which may also stand in front of the first. -/
def namesBy (separator : Char) : Reader (List String) := do
  let _ ← symbol? separator
  let first ← name
  let more ← many (isSymbol separator) (do
    let _ ← symbol separator
    name)
  return first :: more

/-- The interfaces that a type says it implements. -/
def interfaces : Reader (List String) := do
  if ← word? "implements" then namesBy '&' else return []

/-! ## Types -/

/-- What stands behind the keyword of a type: its name, directives and body. The
flag says whether an announcement of union members was read. -/
structure TypeHead where
  name : String
  directives : List Directive
  body : TypeBody
  members : Bool

/-- The fields of an object or interface. -/
def fields : Reader (List FieldDefinition) :=
  bracketed nestingLimit '\x7b' '\x7d' fieldDefinition

/-- A type behind its keyword, if the word is the keyword of a kind of type. -/
def typeHead (keyword : String) : Reader TypeHead := do
  match keyword with
  | "scalar" =>
      let name ← name
      return ⟨name, ← directives nestingLimit, .scalar, false⟩
  | "type" =>
      let name ← name
      let interfaces ← interfaces
      let directives ← directives nestingLimit
      return ⟨name, directives, .object interfaces (← fields), false⟩
  | "interface" =>
      let name ← name
      let interfaces ← interfaces
      let directives ← directives nestingLimit
      return ⟨name, directives, .interface interfaces (← fields), false⟩
  | "union" =>
      let name ← name
      let directives ← directives nestingLimit
      if ← symbol? '=' then
        return ⟨name, directives, .union (← namesBy '|'), true⟩
      else
        return ⟨name, directives, .union [], false⟩
  | "enum" =>
      let name ← name
      let directives ← directives nestingLimit
      return ⟨name, directives, .enum (← bracketed nestingLimit '\x7b' '\x7d' enumValue), false⟩
  | "input" =>
      let name ← name
      let directives ← directives nestingLimit
      return ⟨name, directives,
        .inputObject (← bracketed nestingLimit '\x7b' '\x7d' inputValue), false⟩
  | _ => fail

/-- Whether an extension brings anything. Interfaces alone are not enough for an
interface. -/
def TypeHead.extends (head : TypeHead) : Bool :=
  !head.directives.isEmpty || match head.body with
    | .scalar => false
    | .object interfaces fields => !interfaces.isEmpty || !fields.isEmpty
    | .interface _ fields => !fields.isEmpty
    | .union _ => head.members
    | .enum values => !values.isEmpty
    | .inputObject fields => !fields.isEmpty

/-- An extension behind the word that announces it. -/
def extension : Reader TypeExtension := do
  let (keyword, position) ← located
  let head ← typeHead keyword
  if head.extends then return ⟨position, head.name, head.directives, head.body⟩ else fail

/-! ## Directives -/

/-- The places where a directive can be applied. -/
def directivePlaces : List String :=
  ["QUERY", "MUTATION", "SUBSCRIPTION", "FIELD", "FRAGMENT_DEFINITION", "FRAGMENT_SPREAD",
    "INLINE_FRAGMENT", "VARIABLE_DEFINITION", "SCHEMA", "SCALAR", "OBJECT", "FIELD_DEFINITION",
    "ARGUMENT_DEFINITION", "INTERFACE", "UNION", "ENUM", "ENUM_VALUE", "INPUT_OBJECT",
    "INPUT_FIELD_DEFINITION"]

/-- The places of a directive definition; there may be none at all. -/
def places : Reader (List String) := do
  if ← next (fun token => isName token || isSymbol '|' token) then
    let names ← namesBy '|'
    if names.all directivePlaces.contains then return names else fail
  else
    return []

/-- A directive definition behind its keyword. -/
def directiveDefinition (position : Position) (description : Option String) :
    Reader DirectiveDefinition := do
  let _ ← symbol '@'
  let name ← name
  let parameters ← parameters nestingLimit
  let repeatable ← word? "repeatable"
  let _ ← word "on"
  return ⟨position, description, name, parameters, repeatable, ← places⟩

/-! ## Root types -/

/-- An entry of the root block: a kind of operation and a type. -/
def rootEntry : Reader (OperationKind × String) := do
  let keyword ← name
  let _ ← symbol ':'
  let type ← name
  match OperationKind.ofKeyword? keyword with
  | some kind => return (kind, type)
  | none => fail

/-- The root block behind its keyword; a kind of operation occurs at most once. -/
def rootBlock (position : Position) : Reader RootBlock := do
  let directives ← directives nestingLimit
  let _ ← symbol '\x7b'
  let entries ← upTo '\x7d' rootEntry
  if (entries.map Prod.fst).Nodup then
    return ⟨position, directives, entries.lookup .query, entries.lookup .mutation,
      entries.lookup .subscription⟩
  else
    fail

/-! ## Definitions -/

/-- A definition of a type system document. Only types and directives may have a
description. -/
def typeSystemDefinition : Reader TypeSystemDefinition := do
  let description ← description?
  let (keyword, position) ← located
  match keyword, description with
  | "schema", none => return .roots (← rootBlock position)
  | "extend", none => return .extension (← extension)
  | "directive", _ =>
      return .directive (← directiveDefinition position (description.map Prod.fst))
  | _, _ =>
      let head ← typeHead keyword
      return .type ⟨position, description.map Prod.fst, head.name, head.directives, head.body⟩

end Reader

/-- The definitions that a text denotes, at least one. -/
def TypeSystemDefinition.parse? (text : String) : Option (List TypeSystemDefinition) := do
  let definitions ← Reader.run? (Reader.many (fun _ => true) Reader.typeSystemDefinition) text
  if definitions.isEmpty then none else some definitions

end QueryShape.Source
